import MoeJit.Internet.TcpTxLayout

/-!
# The scoreboard of the send buffer

`TcpTxBuffer` counts the bytes of the sent items that are sacked, lost and retransmitted, beside
the flags of the items.

`scoreboard_of_run`: the counts are right in every state of a run in which no flagged segment is
put back by `ResetLastSegmentSent` and no lost segment is marked by `AddRenoSack`, which
`DiscardUpTo` calls when it reaches a sacked segment. Neither operation looks at the other flags
(`sacked_segment_put_back`).
-/

namespace MoeJit.Tcp

open List

open Bytes (Byte)
open TcpTxBuffer

/-! ## 1. Statement -/

/-- The counts are the bytes of the flagged items, no item is both sacked and lost, and what is
in flight can be computed. -/
structure Scoreboard (s : TcpTxBuffer) : Prop where
  sackedOut : s.sackedOut.toNat = lengthOf (·.sacked) s.sentList
  lostOut : s.lostOut.toNat = lengthOf (·.lost) s.sentList
  retrans : s.retrans.toNat = lengthOf (·.retrans) s.sentList
  exclusive : ∀ item ∈ s.sentList, (item.sacked && item.lost) = false
  inFlight : s.sackedOut.toNat + s.lostOut.toNat ≤ s.sentSize.toNat

/-- The items from the one that holds the byte at the offset. -/
def itemsFrom : Nat → List TcpTxItem → List TcpTxItem
  | _, [] => []
  | offset, item :: rest =>
    if item.packet.length ≤ offset then itemsFrom (offset - item.packet.length) rest
    else item :: rest

/-- The segment that `AddRenoSack` marks is not lost. -/
def RenoSafe (items : List TcpTxItem) : Prop :=
  ∀ item ∈ (items.tail.dropWhile (·.sacked)).head?, item.lost = false

/-- The last segment has no flag when it is put back, and a segment that is marked in place of one
that is not known is not lost. -/
def ScoreboardSafe (s : TcpTxBuffer) : Operation → Prop
  | .resetLastSegmentSent => PutBackSafe s .resetLastSegmentSent
  | .addRenoSack => RenoSafe s.sentList
  | .discardUpTo seq _ =>
    let items := itemsFrom (seq - s.firstByteSeq).toNat s.sentList
    ∀ head ∈ items.head?, head.sacked = true → RenoSafe items
  | _ => True

/-! ## 2. The invariant -/

/-- The scoreboard without bounds. -/
structure Counts (s : TcpTxBuffer) : Prop where
  sackedOut : s.sackedOut = sizeOf (·.sacked) s.sentList
  lostOut : s.lostOut = sizeOf (·.lost) s.sentList
  retrans : s.retrans = sizeOf (·.retrans) s.sentList
  exclusive : ∀ item ∈ s.sentList, (item.sacked && item.lost) = false

theorem Counts.scoreboard {s : TcpTxBuffer} (hc : Counts s) (hs : Layout s) : Scoreboard s := by
  have hlt := hs.length_sent_lt
  have hsum (flag : TcpTxItem → Bool) : (sizeOf flag s.sentList).toNat = lengthOf flag s.sentList := by
    rw [sizeOf_eq, BitVec.toNat_ofNat, Nat.mod_eq_of_lt (lt_of_le_of_lt lengthOf_le hlt)]
  constructor
  case sackedOut => rw [hc.sackedOut, hsum]
  case lostOut => rw [hc.lostOut, hsum]
  case retrans => rw [hc.retrans, hsum]
  case exclusive => exact hc.exclusive
  case inFlight =>
    rw [hc.sackedOut, hc.lostOut, hsum, hsum, hs.sentSize]
    refine lengthOf_add_le fun item hitem hflags => ?_
    have hfalse := hc.exclusive item hitem
    rw [hflags.1, hflags.2] at hfalse
    cases hfalse

theorem counts_initial (n maxBuffer dupAckThresh segmentSize : BitVec 32) (sackEnabled : Bool) :
    Counts (initial n maxBuffer dupAckThresh segmentSize sackEnabled) where
  sackedOut := rfl
  lostOut := rfl
  retrans := rfl
  exclusive := forall_mem_nil _

section Sums

variable {flag : TcpTxItem → Bool} {items : List TcpTxItem}

theorem sizeOf_false (h : ∀ item ∈ items, flag item = false) : sizeOf flag items = 0 := by
  rw [sizeOf_eq, lengthOf_false h]
  rfl

theorem sizeOf_map {flag' : TcpTxItem → Bool} {f : TcpTxItem → TcpTxItem} {items' : List TcpTxItem}
    (h : items' = items.map f) (hf : ∀ item, (f item).packet = item.packet)
    (hflag : ∀ item ∈ items, flag (f item) = flag' item) :
    sizeOf flag' items = sizeOf flag items' := by
  rw [h]
  unfold sizeOf
  rw [map_map]
  refine congrArg List.sum (map_congr_left fun item hitem => ?_)
  show _ = if flag (f item) then (f item).size else 0
  rw [hflag item hitem, TcpTxItem.size, TcpTxItem.size, hf]

end Sums

variable {now : Int} {item : TcpTxItem} {offset : BitVec 32}

section Steps

variable {s s' : TcpTxBuffer}

/-! ## 3. Sending and discarding -/

theorem Counts.sends (hc : Counts s) (hclean : Clean s) {numBytes : BitVec 32}
    {seq : SequenceNumber32} {sent : TcpTxItem} (h : Sends s numBytes seq now s' sent) :
    Counts s' := by
  cases h with
  | @new item rest retrans nodes hseq hedit hnodes hlen hretrans =>
    have hflags := hedit.unflagged hclean
    obtain ⟨hsacked, hlost, -⟩ := hflags item mem_cons_self
    have hcount := hedit.sizeOf_retrans
    rw [sizeOf_false fun item hitem => (hflags item hitem).2.2,
      sizeOf_false fun item hitem => (hclean item hitem).2.2, add_zero, add_zero] at hcount
    constructor
    case sackedOut =>
      show s.sackedOut = sizeOf _ (s.sentList ++ [item.sent seq nodes now])
      rw [sizeOf_append, ← hc.sackedOut, sizeOf_cons, if_neg (by simp [TcpTxItem.sent, hsacked])]
      exact (add_zero _).symm
    case lostOut =>
      show s.lostOut = sizeOf _ (s.sentList ++ [item.sent seq nodes now])
      rw [sizeOf_append, ← hc.lostOut, sizeOf_cons, if_neg (by simp [TcpTxItem.sent, hlost])]
      exact (add_zero _).symm
    case retrans =>
      show retrans = sizeOf _ (s.sentList ++ [item.sent seq nodes now])
      rw [sizeOf_append, ← hc.retrans, sizeOf_cons, if_neg (by simp [TcpTxItem.sent, hretrans])]
      exact hcount.trans (add_zero _).symm
    case exclusive =>
      refine forall_mem_append.mpr ⟨hc.exclusive, forall_mem_singleton.mpr ?_⟩
      show (item.sacked && item.lost) = false
      rw [hsacked]
      rfl
  | @again item before after retrans nodes hedit hnodes hplace hlen hsacked =>
    have hsame (flag : TcpTxItem → Bool) (hflag : flag (item.sentAgain now) = flag item) :
        sizeOf flag (before ++ item.sentAgain now :: after) =
          sizeOf flag (before ++ item :: after) := by
      rw [sizeOf_append, sizeOf_append, sizeOf_cons, sizeOf_cons, hflag]
      rfl
    have hcount := hedit.sizeOf_retrans
    rw [← hc.retrans, sizeOf_append, sizeOf_cons, add_comm s.retrans] at hcount
    replace hcount := add_right_cancel hcount
    have hexclusive := hedit.flags (P := fun sacked lost => (sacked && lost) = false) hc.exclusive
    constructor
    case sackedOut => exact hc.sackedOut.trans (hedit.sizeOf_sacked.symm.trans (hsame _ rfl).symm)
    case lostOut => exact hc.lostOut.trans (hedit.sizeOf_lost.symm.trans (hsame _ rfl).symm)
    case retrans =>
      show (if item.retrans then retrans else retrans + item.size) = sizeOf _ _
      rw [sizeOf_append, sizeOf_cons, hcount]
      show _ = _ + (item.size + _)
      split
      · rfl
      · ring
    case exclusive =>
      obtain ⟨hbefore, hafter⟩ := forall_mem_append.mp hexclusive
      obtain ⟨hitem, hafter⟩ := forall_mem_cons.mp hafter
      exact forall_mem_append.mpr ⟨hbefore, forall_mem_cons.mpr ⟨hitem, hafter⟩⟩

variable {items : List TcpTxItem}

theorem Counts.withoutHead (hc : Counts s) (hlist : s.sentList = item :: items) :
    Counts (uncounted (withoutHead s item items) item item.size) := by
  have ⟨hsacked, hlost, hretrans, hexclusive⟩ := hc
  rw [hlist] at hsacked hlost hretrans hexclusive
  rw [sizeOf_cons] at hsacked hlost hretrans
  constructor
  case sackedOut =>
    show (if item.sacked then s.sackedOut - item.size else s.sackedOut) = sizeOf _ items
    rw [hsacked]
    split <;> ring
  case lostOut =>
    show (if item.lost then s.lostOut - item.size else s.lostOut) = sizeOf _ items
    rw [hlost]
    split <;> ring
  case retrans =>
    show (if item.retrans then s.retrans - item.size else s.retrans) = sizeOf _ items
    rw [hretrans]
    split <;> ring
  case exclusive => exact (forall_mem_cons.mp hexclusive).2

theorem size_from (hle : offset.toNat ≤ item.packet.length) :
    (item.from offset).size = item.size - offset := by
  have hdrop : (item.from offset).packet.length = item.packet.length - offset.toNat := length_drop
  have hoffset : BitVec.ofNat 32 offset.toNat = offset := by
    rw [BitVec.ofNat_toNat, BitVec.setWidth_eq]
  have hparts : (item.from offset).size + BitVec.ofNat 32 offset.toNat = item.size := by
    rw [TcpTxItem.size, hdrop, ← BitVec.ofNat_add, Nat.sub_add_cancel hle]
    rfl
  rw [← hparts, hoffset]
  ring

theorem Counts.withShorterHead (hc : Counts s) (hs : Layout s) (hlist : s.sentList = item :: items)
    (hlt : offset < item.size) :
    Counts (uncounted (withShorterHead s item items offset) item offset) := by
  have ⟨hsacked, hlost, hretrans, hexclusive⟩ := hc
  rw [hlist] at hsacked hlost hretrans hexclusive
  rw [sizeOf_cons] at hsacked hlost hretrans
  obtain ⟨-, hitem, -⟩ := hs.length_head hlist
  have hsize : (item.from offset).size = item.size - offset :=
    size_from (hitem ▸ le_of_lt (BitVec.lt_def.mp hlt))
  constructor
  case sackedOut =>
    show (if item.sacked then s.sackedOut - offset else s.sackedOut) =
      sizeOf _ (item.from offset :: items)
    rw [sizeOf_cons, hsize, hsacked]
    show _ = (if item.sacked then _ else _) + _
    split <;> ring
  case lostOut =>
    show (if item.lost then s.lostOut - offset else s.lostOut) =
      sizeOf _ (item.from offset :: items)
    rw [sizeOf_cons, hsize, hlost]
    show _ = (if item.lost then _ else _) + _
    split <;> ring
  case retrans =>
    show (if item.retrans then s.retrans - offset else s.retrans) =
      sizeOf _ (item.from offset :: items)
    rw [sizeOf_cons, hsize, hretrans]
    show _ = (if item.retrans then _ else _) + _
    split <;> ring
  case exclusive =>
    obtain ⟨hhead, hrest⟩ := forall_mem_cons.mp hexclusive
    exact forall_mem_cons.mpr ⟨hhead, hrest⟩

theorem Drops.counts (h : Drops now s offset s') (hs : Layout s) (hclean : Clean s) (hc : Counts s)
    : Counts s' := by
  induction h with
  | done => exact hc
  | send _ hsends _ ih =>
    exact ih (hs.sends hsends) (hclean.sends hsends) (hc.sends hclean hsends)
  | whole hlist _ _ ih =>
    exact ih ((hs.withoutHead hlist).uncounted _) hclean (hc.withoutHead hlist)
  | part hlist _ hlt => exact hc.withShorterHead hs hlist hlt

/-! ## 4. Marking one segment -/

theorem Counts.addRenoSack (hc : Counts s) (hsafe : RenoSafe s.sentList)
    (h : s.addRenoSack = .ok s') : Counts s' := by
  rcases addRenoSack_ok h with rfl | ⟨head, before, item, after, hlist, hitem, hbefore, rfl⟩
  · exact hc
  · have hlost : item.lost = false := by
      refine hsafe item ?_
      rw [hlist, tail_cons, dropWhile_append_of_pos hbefore,
        dropWhile_cons_of_neg (Bool.eq_false_iff.mp hitem)]
      rfl
    have hsum (flag : TcpTxItem → Bool) (sacked : Bool) :
        sizeOf flag (head :: (before ++ { item with sacked := sacked } :: after)) =
          (if flag { item with sacked := sacked } then item.size else 0) +
            sizeOf flag (head :: (before ++ after)) := by
      rw [sizeOf_cons, sizeOf_cons, sizeOf_append, sizeOf_append, sizeOf_cons]
      show _ + (_ + ((if _ then item.size else 0) + _)) = _
      ring
    have hold (flag : TcpTxItem → Bool) : sizeOf flag s.sentList =
        (if flag item then item.size else 0) + sizeOf flag (head :: (before ++ after)) := by
      rw [hlist]
      exact hsum flag item.sacked
    have hsacked := hc.sackedOut
    rw [hold, if_neg (Bool.eq_false_iff.mp hitem), zero_add] at hsacked
    have hexclusive := hc.exclusive
    rw [hlist] at hexclusive
    constructor
    case sackedOut =>
      show s.sackedOut + item.size = _
      rw [hsum, if_pos rfl, hsacked]
      ring
    case lostOut =>
      show s.lostOut = _
      rw [hc.lostOut, hold, hsum]
    case retrans =>
      show s.retrans = _
      rw [hc.retrans, hold, hsum]
    case exclusive =>
      obtain ⟨hhead, hrest⟩ := forall_mem_cons.mp hexclusive
      obtain ⟨hbefore', hafter⟩ := forall_mem_append.mp hrest
      refine forall_mem_cons.mpr ⟨hhead, forall_mem_append.mpr ⟨hbefore', ?_⟩⟩
      exact forall_mem_cons.mpr ⟨by rw [hlost, Bool.and_false], (forall_mem_cons.mp hafter).2⟩

theorem Counts.markHeadAsLost (hc : Counts s) : Counts s.markHeadAsLost := by
  unfold TcpTxBuffer.markHeadAsLost
  split
  · exact hc
  · next head rest hlist =>
    have ⟨hsacked, hlost, hretrans, hexclusive⟩ := hc
    rw [hlist] at hsacked hlost hretrans hexclusive
    rw [sizeOf_cons] at hsacked hlost hretrans
    constructor
    case sackedOut =>
      show (if head.sacked then s.sackedOut - head.size else s.sackedOut) = sizeOf _ (_ :: rest)
      rw [sizeOf_cons, hsacked]
      show _ = 0 + _
      split <;> ring
    case lostOut =>
      show (if head.lost then s.lostOut else s.lostOut + head.size) = sizeOf _ (_ :: rest)
      rw [sizeOf_cons, hlost]
      show _ = head.size + _
      split <;> ring
    case retrans =>
      show (if head.retrans then s.retrans - head.size else s.retrans) = sizeOf _ (_ :: rest)
      rw [sizeOf_cons, hretrans]
      show _ = 0 + _
      split <;> ring
    case exclusive =>
      exact forall_mem_cons.mpr ⟨rfl, (forall_mem_cons.mp hexclusive).2⟩

/-- The head is cleared, the mark moves on. -/
theorem Counts.settleHead (hc : Counts s)
    (hsafe : ∀ head ∈ s.sentList.head?, head.sacked = true → RenoSafe s.sentList)
    (h : s.settleHead = .ok s') : Counts s' := by
  unfold TcpTxBuffer.settleHead at h
  split at h
  · cases h
    exact hc
  · next head rest hlist =>
    split at h
    · next hhead =>
      split at h
      · cases h
      · obtain ⟨s₁, hreno, h⟩ := except_bind_eq_ok.mp h
        cases h
        have ⟨hsacked, hlost, hretrans, hexclusive⟩ := hc
        rw [hlist] at hsacked hlost hretrans hexclusive hsafe
        have hcleared : Counts { s with
            sentList := { head with sacked := false } :: rest
            sackedOut := s.sackedOut - head.size } := by
          constructor
          case sackedOut =>
            show s.sackedOut - head.size = sizeOf _ (_ :: rest)
            rw [hsacked, sizeOf_cons, if_pos hhead, sizeOf_cons]
            show _ = 0 + _
            ring
          case lostOut => exact hlost
          case retrans => exact hretrans
          case exclusive =>
            exact forall_mem_cons.mpr ⟨rfl, (forall_mem_cons.mp hexclusive).2⟩
        exact (hcleared.addRenoSack (hsafe head rfl hhead) hreno).markHeadAsLost
    · cases h
      exact hc

/-! ### The segment that is marked when data is discarded -/

def flagsOf (items : List TcpTxItem) : List (Bool × Bool) :=
  items.map fun item => (item.sacked, item.lost)

theorem renoSafe_iff (items : List TcpTxItem) :
    RenoSafe items ↔ ∀ flags ∈ ((flagsOf items).tail.dropWhile Prod.fst).head?, flags.2 = false := by
  rw [flagsOf, ← map_tail, dropWhile_map, head?_map]
  unfold RenoSafe
  cases hhead : (items.tail.dropWhile (·.sacked)).head? with
  | none =>
    have hsame : (items.tail.dropWhile (Prod.fst ∘ fun item : TcpTxItem =>
        (item.sacked, item.lost))).head? = none := hhead
    rw [hsame]
    constructor
    · intro _ flags hflags
      cases hflags
    · intro _ item hitem
      cases hitem
  | some item =>
    have hsame : (items.tail.dropWhile (Prod.fst ∘ fun item : TcpTxItem =>
        (item.sacked, item.lost))).head? = some item := hhead
    rw [hsame]
    constructor
    · intro h flags hflags
      cases hflags
      exact h item rfl
    · intro h item' hitem
      cases hitem
      exact h _ rfl

theorem itemsFrom_sublist (offset : Nat) (items : List TcpTxItem) :
    List.Sublist (itemsFrom offset items) items := by
  induction items generalizing offset with
  | nil => exact List.Sublist.refl _
  | cons item rest ih =>
    unfold itemsFrom
    split
    · exact (ih _).trans (sublist_cons_self _ _)
    · exact List.Sublist.refl _

theorem itemsFrom_zero (h : Nonempty items) : itemsFrom 0 items = items := by
  cases items with
  | nil => rfl
  | cons item rest =>
    unfold itemsFrom
    rw [if_neg (Nat.not_le_of_lt (h item mem_cons_self))]

/-- What the loop of `DiscardUpTo` leaves: nothing that is sacked, or the flags from the byte
that is first now. -/
theorem Drops.flags (h : Drops now s offset s') (hs : Layout s) (hclean : Clean s) :
    (∀ item ∈ s'.sentList, item.sacked = false) ∨
      flagsOf s'.sentList = flagsOf (itemsFrom offset.toNat s.sentList) := by
  induction h with
  | @done s offset h =>
    cases h with
    | inl hsize =>
      have hlen := hs.size
      rw [hsize] at hlen
      have hnil := eq_nil_of_length_bytesOf hs.nonempty_sent
        (Nat.eq_zero_of_add_eq_zero_right hlen.symm)
      rw [hnil]
      exact .inl (forall_mem_nil _)
    | inr hoffset =>
      rw [hoffset]
      exact .inr (congrArg flagsOf (itemsFrom_zero hs.nonempty_sent).symm)
  | @send s s₁ s' offset item hempty hsends _ ih =>
    have hunsacked : ∀ item ∈ s₁.sentList, item.sacked = false := by
      cases hsends with
      | @new item rest retrans nodes hseq hedit hnodes hlen hretrans =>
        show ∀ item ∈ s.sentList ++ [_], _
        rw [hempty]
        exact forall_mem_singleton.mpr (hedit.unflagged hclean item mem_cons_self).1
      | @again item before after retrans nodes hedit hnodes hplace hlen hsacked =>
        have hbytes := congrArg List.length hedit.bytesOf_eq
        have hne := hedit.nonempty hs.nonempty_sent item (mem_append_right _ mem_cons_self)
        rw [hempty, bytesOf_append, bytesOf_cons, length_append, length_append,
          bytesOf_nil, length_nil] at hbytes
        omega
    refine .inl ?_
    rcases ih (hs.sends hsends) (hclean.sends hsends) with h | h
    · exact h
    · intro item hitem
      have hmem : (item.sacked, item.lost) ∈ flagsOf s'.sentList := mem_map_of_mem hitem
      rw [h] at hmem
      obtain ⟨item', hitem', heq⟩ := mem_map.mp hmem
      rw [← (Prod.mk.inj heq).1]
      exact hunsacked item' ((itemsFrom_sublist _ _).subset hitem')
  | @whole s s' offset item items hlist hle _ ih =>
    obtain ⟨-, hitem, -⟩ := hs.length_head hlist
    refine (ih ((hs.withoutHead hlist).uncounted _) hclean).imp_right fun h => ?_
    rw [h, hlist, itemsFrom, if_pos (hitem ▸ BitVec.le_def.mp hle), BitVec.toNat_sub_of_le hle, hitem]
    rfl
  | @part s offset item items hlist _ hlt =>
    obtain ⟨-, hitem, -⟩ := hs.length_head hlist
    refine .inr ?_
    rw [hlist, itemsFrom, if_neg (Nat.not_le_of_lt (hitem ▸ BitVec.lt_def.mp hlt))]
    rfl

theorem Counts.discardUpTo (hc : Counts s) (hs : Layout s) (hclean : Clean s)
    {seq : SequenceNumber32} (hsafe : ScoreboardSafe s (.discardUpTo seq now))
    (h : s.discardUpTo seq now = .ok s') : Counts s' := by
  rcases discardUpTo_ok hs h with ⟨-, rfl⟩ | ⟨s₁, s₂, -, hdrops, hsettle, rfl, -⟩
  · exact hc
  · have hc₁ := hdrops.counts hs hclean hc
    have hack : Counts (acknowledged s₁ seq) :=
      ⟨hc₁.sackedOut, hc₁.lostOut, hc₁.retrans, hc₁.exclusive⟩
    have hc₂ : Counts s₂ := by
      refine hack.settleHead (fun head hhead hsacked => ?_) hsettle
      rcases hdrops.flags hs hclean with hnone | hflags
      · have hfalse := hnone head (mem_of_mem_head? hhead)
        rw [hsacked] at hfalse
        cases hfalse
      · have hfirst : (flagsOf (itemsFrom (seq - s.firstByteSeq).toNat s.sentList)).head? =
            some (head.sacked, head.lost) := by
          rw [← hflags, flagsOf, head?_map]
          exact congrArg (Option.map _) hhead
        rw [flagsOf, head?_map] at hfirst
        obtain ⟨head', hhead', heq⟩ := Option.map_eq_some_iff.mp hfirst
        have hsacked' := (Prod.mk.inj heq).1.trans hsacked
        have hsafe' := (renoSafe_iff _).mp (hsafe head' hhead' hsacked')
        rw [← hflags] at hsafe'
        exact (renoSafe_iff _).mpr hsafe'
    exact ⟨hc₂.sackedOut, hc₂.lostOut, hc₂.retrans, hc₂.exclusive⟩

/-! ## 5. Selective acknowledgements -/

def Exclusive (items : List TcpTxItem) : Prop := ∀ item ∈ items, (item.sacked && item.lost) = false

theorem exclusive_cons : Exclusive (item :: items) ↔
    (item.sacked && item.lost) = false ∧ Exclusive items := forall_mem_cons

/-- What the counts gain, the flags gain. -/
structure Recounted (items : List TcpTxItem) (s : TcpTxBuffer) (items' : List TcpTxItem)
    (s' : TcpTxBuffer) : Prop where
  sackedOut : s'.sackedOut + sizeOf (·.sacked) items = s.sackedOut + sizeOf (·.sacked) items'
  lostOut : s'.lostOut + sizeOf (·.lost) items = s.lostOut + sizeOf (·.lost) items'
  retrans : s'.retrans = s.retrans
  flags : sizeOf (·.retrans) items' = sizeOf (·.retrans) items
  exclusive : Exclusive items → Exclusive items'

theorem Recounted.refl (items : List TcpTxItem) (s : TcpTxBuffer) : Recounted items s items s :=
  ⟨rfl, rfl, rfl, rfl, id⟩

theorem Recounted.cons {items items' : List TcpTxItem} (h : Recounted items s items' s')
    (item : TcpTxItem) : Recounted (item :: items) s (item :: items') s' := by
  constructor
  case sackedOut =>
    rw [sizeOf_cons, sizeOf_cons]
    linear_combination h.sackedOut
  case lostOut =>
    rw [sizeOf_cons, sizeOf_cons]
    linear_combination h.lostOut
  case retrans => exact h.retrans
  case flags => rw [sizeOf_cons, sizeOf_cons, h.flags]
  case exclusive =>
    intro hexclusive
    obtain ⟨hitem, hitems⟩ := exclusive_cons.mp hexclusive
    exact exclusive_cons.mpr ⟨hitem, h.exclusive hitems⟩

theorem sackItems_recounted {block : SackBlock} {items' : List TcpTxItem} {start : SequenceNumber32}
    {bytes bytes' : BitVec 32}
    (h : sackItems block start items (s, bytes) = .ok (items', s', bytes')) :
    Recounted items s items' s' := by
  induction items generalizing start s bytes items' with
  | nil =>
    cases h
    exact .refl _ _
  | cons item rest ih =>
    unfold sackItems at h
    split at h
    · split at h
      · split at h
        · cases h
        · obtain ⟨⟨rest', result⟩, hrest, heq⟩ := except_bind_eq_ok.mp h
          cases heq
          exact (ih hrest).cons item
      · next hsacked =>
        obtain ⟨⟨rest', result⟩, hrest, heq⟩ := except_bind_eq_ok.mp h
        cases heq
        have hih := ih hrest
        have hsackedOut := hih.sackedOut
        have hlostOut := hih.lostOut
        dsimp only at hsackedOut hlostOut
        constructor
        case sackedOut =>
          rw [sizeOf_cons, sizeOf_cons, if_neg hsacked]
          show _ = s.sackedOut + (item.size + _)
          linear_combination hsackedOut
        case lostOut =>
          rw [sizeOf_cons, sizeOf_cons]
          show _ = s.lostOut + (0 + _)
          cases hlost : item.lost with
          | true =>
            rw [hlost, if_pos rfl] at hlostOut
            rw [if_pos rfl]
            linear_combination hlostOut
          | false =>
            rw [hlost, if_neg Bool.false_ne_true] at hlostOut
            rw [if_neg Bool.false_ne_true]
            linear_combination hlostOut
        case retrans => exact hih.retrans
        case flags =>
          rw [sizeOf_cons, sizeOf_cons, hih.flags]
          rfl
        case exclusive =>
          intro hexclusive
          exact exclusive_cons.mpr ⟨rfl, hih.exclusive (exclusive_cons.mp hexclusive).2⟩
    · split at h
      · cases h
        exact .refl _ _
      · obtain ⟨⟨rest', result⟩, hrest, heq⟩ := except_bind_eq_ok.mp h
        cases heq
        exact (ih hrest).cons item

theorem Counts.recounted (hc : Counts s) (h : Recounted s.sentList s items s') :
    Counts { s' with sentList := items } := by
  constructor
  case sackedOut =>
    show s'.sackedOut = sizeOf _ items
    linear_combination h.sackedOut + hc.sackedOut
  case lostOut =>
    show s'.lostOut = sizeOf _ items
    linear_combination h.lostOut + hc.lostOut
  case retrans => exact h.retrans.trans (hc.retrans.trans h.flags.symm)
  case exclusive => exact h.exclusive hc.exclusive

theorem Counts.updateBlocks {blocks : List SackBlock} {bytes bytes' : BitVec 32} {outside : Bool}
    (hc : Counts s) (h : updateBlocks blocks (s, bytes) = .ok ((s', bytes'), outside)) :
    Counts s' := by
  induction blocks generalizing s bytes with
  | nil =>
    cases h
    exact hc
  | cons block blocks ih =>
    unfold TcpTxBuffer.updateBlocks at h
    split at h
    · cases h
      exact hc
    · obtain ⟨⟨items, s₁, bytes₁⟩, hitems, h⟩ := except_bind_eq_ok.mp h
      exact ih (hc.recounted (sackItems_recounted hitems)) h

/-- The loop that goes down through the items. -/
theorem foldr_markLost_counts (thresh : BitVec 32) (items : List TcpTxItem) (lostOut : BitVec 32) :
    let counted := items.foldr (markLost thresh) ([], 0, lostOut)
    counted.2.2 + sizeOf (·.lost) items = lostOut + sizeOf (·.lost) counted.1 ∧
      sizeOf (·.sacked) counted.1 = sizeOf (·.sacked) items ∧
      sizeOf (·.retrans) counted.1 = sizeOf (·.retrans) items ∧
      (Exclusive items → Exclusive counted.1) := by
  induction items with
  | nil => exact ⟨rfl, rfl, rfl, id⟩
  | cons item items ih =>
    obtain ⟨hlost, hsacked, hretrans, hexclusive⟩ := ih
    dsimp only
    rw [foldr_cons, markLost_eq]
    refine ⟨?_, ?_, ?_, fun h => ?_⟩
    · rw [sizeOf_cons, sizeOf_cons]
      show _ = _ + ((if _ then item.size else 0) + _)
      dsimp only
      cases item.lost with
      | true =>
        rw [Bool.not_true, Bool.false_and, if_neg Bool.false_ne_true, Bool.true_or, if_pos rfl]
        linear_combination hlost
      | false =>
        rw [Bool.not_false, Bool.true_and, Bool.false_or, if_neg Bool.false_ne_true]
        split
        · linear_combination hlost
        · linear_combination hlost
    · rw [sizeOf_cons, sizeOf_cons, hsacked]
      rfl
    · rw [sizeOf_cons, sizeOf_cons, hretrans]
      rfl
    · obtain ⟨hitem, hitems⟩ := exclusive_cons.mp h
      refine exclusive_cons.mpr ⟨?_, hexclusive hitems⟩
      show (item.sacked && (item.lost || (!item.sacked && _))) = false
      rw [Bool.and_or_distrib_left, hitem, ← Bool.and_assoc, Bool.and_not_self, Bool.false_and]
      rfl

/-- The head is marked without a look at whether it is sacked. -/
theorem Counts.updateLostCount (hc : Counts s) (h : s.updateLostCount = .ok s')
    (hhead : ∀ head ∈ s'.sentList.head?, head.sacked = false) : Counts s' := by
  obtain ⟨node, head, walked, above, -, hwalk, rfl⟩ := updateLostCount_ok h
  obtain ⟨hlist, -⟩ := upTo_ok hwalk
  obtain ⟨hlost, hsacked, hretrans, hexclusive⟩ :=
    foldr_markLost_counts s.dupAckThresh walked s.lostOut
  have hfirst := hhead _ (Option.mem_def.mpr head?_cons)
  replace hhead : head.sacked = false := hfirst
  have hsum (flag : TcpTxItem → Bool) : sizeOf flag s.sentList =
      (if flag head then head.size else 0) + (sizeOf flag walked + sizeOf flag above) := by
    rw [hlist, cons_append, sizeOf_cons, sizeOf_append]
  have hall := hc.exclusive
  rw [hlist] at hall
  obtain ⟨-, hrest⟩ := exclusive_cons.mp hall
  obtain ⟨hwalked, habove⟩ := forall_mem_append.mp hrest
  constructor
  case sackedOut =>
    show s.sackedOut = _
    rw [hc.sackedOut, hsum, sizeOf_cons, sizeOf_append, hsacked]
    rfl
  case lostOut =>
    have hcount := hc.lostOut
    rw [hsum] at hcount
    rw [sizeOf_cons, sizeOf_append]
    dsimp only
    show _ = (if _ then head.size else 0) + _
    cases hl : head.lost with
    | true =>
      rw [hl, if_pos rfl] at hcount
      rw [Bool.not_true, Bool.and_false, if_neg Bool.false_ne_true, Bool.true_or, if_pos rfl]
      linear_combination hlost + hcount
    | false =>
      rw [hl, if_neg Bool.false_ne_true] at hcount
      rw [Bool.not_false, Bool.and_true, Bool.false_or]
      split
      · linear_combination hlost + hcount
      · linear_combination hlost + hcount
  case retrans =>
    show s.retrans = _
    rw [hc.retrans, hsum, sizeOf_cons, sizeOf_append, hretrans]
    rfl
  case exclusive =>
    refine exclusive_cons.mpr ⟨?_, forall_mem_append.mpr ⟨hexclusive hwalked, habove⟩⟩
    show (head.sacked && _) = false
    rw [hhead]
    rfl

theorem Counts.update (hc : Counts s) {list : List SackBlock} {bytes : BitVec 32}
    (h : s.update list = .ok (s', bytes)) : Counts s' := by
  rcases update_ok h with hblocks | ⟨s₁, hblocks, hcount, hhead, -⟩
  · exact hc.updateBlocks hblocks
  · have hc₁ := hc.updateBlocks hblocks
    rcases hcount with ⟨-, rfl⟩ | ⟨-, hcount⟩
    · exact hc₁
    · exact hc₁.updateLostCount hcount hhead

/-! ## 6. The other operations -/

theorem Counts.add (hc : Counts s) (p : Packet) : Counts (s.add p).1 := by
  unfold TcpTxBuffer.add
  dsimp only
  split
  · split
    · exact ⟨hc.sackedOut, hc.lostOut, hc.retrans, hc.exclusive⟩
    · exact hc
  · exact hc

theorem Counts.loseSentList (hc : Counts s) (hs : Layout s) (resetSack : Bool) :
    Counts (s.loseSentList resetSack) := by
  cases resetSack with
  | true =>
    constructor
    case sackedOut =>
      exact (sizeOf_false (forall_mem_map.mpr fun _ _ => rfl)).symm
    case lostOut =>
      show s.sentSize = _
      rw [hs.sentSize_eq, ← lengthOf_true, ← sizeOf_eq]
      exact sizeOf_map rfl (fun _ => rfl) fun _ _ => rfl
    case retrans => exact (sizeOf_false (forall_mem_map.mpr fun _ _ => rfl)).symm
    case exclusive => exact forall_mem_map.mpr fun _ _ => rfl
  | false =>
    constructor
    case sackedOut =>
      exact hc.sackedOut.trans (sizeOf_map rfl (fun _ => rfl) fun _ _ => rfl)
    case lostOut => exact sizeOf_map rfl (fun _ => rfl) fun _ _ => rfl
    case retrans => exact (sizeOf_false (forall_mem_map.mpr fun _ _ => rfl)).symm
    case exclusive =>
      refine forall_mem_map.mpr fun item hitem => ?_
      show (item.sacked && (item.lost || !item.sacked)) = false
      rw [Bool.and_or_distrib_left, hc.exclusive item hitem, Bool.and_not_self]
      rfl

theorem counts_resetSentList : Counts s.resetSentList where
  sackedOut := rfl
  lostOut := rfl
  retrans := rfl
  exclusive := forall_mem_nil _

theorem Counts.resetRenoSack (hc : Counts s) : Counts s.resetRenoSack where
  sackedOut := (sizeOf_false (forall_mem_map.mpr fun _ _ => rfl)).symm
  lostOut := hc.lostOut.trans (sizeOf_map rfl (fun _ => rfl) fun _ _ => rfl)
  retrans := hc.retrans.trans (sizeOf_map rfl (fun _ => rfl) fun _ _ => rfl)
  exclusive := forall_mem_map.mpr fun _ _ => rfl

/-- Only the count of retransmitted bytes is taken back. -/
theorem Counts.resetLastSegmentSent (hc : Counts s)
    (hsafe : ScoreboardSafe s .resetLastSegmentSent) : Counts s.resetLastSegmentSent := by
  rcases resetLastSegmentSent_eq (s := s) with ⟨-, heq⟩ | ⟨items, item, hlist, heq⟩
  · rw [heq]
    exact hc
  · obtain ⟨hsacked, hlost, hretrans⟩ := hsafe item (by rw [hlist, getLast?_concat]; rfl)
    have hsum (flag : TcpTxItem → Bool) (hflag : flag item = false) :
        sizeOf flag s.sentList = sizeOf flag items := by
      rw [hlist, sizeOf_append, sizeOf_cons, hflag, if_neg Bool.false_ne_true]
      exact (congrArg _ (add_zero _)).trans (add_zero _)
    have hexclusive := hc.exclusive
    rw [hlist] at hexclusive
    rw [heq, hretrans, if_neg Bool.false_ne_true]
    exact ⟨hc.sackedOut.trans (hsum _ hsacked), hc.lostOut.trans (hsum _ hlost),
      hc.retrans.trans (hsum _ hretrans), (forall_mem_append.mp hexclusive).1⟩

theorem Counts.deleteRetransmittedFlagFromHead (hc : Counts s) :
    Counts s.deleteRetransmittedFlagFromHead := by
  unfold TcpTxBuffer.deleteRetransmittedFlagFromHead
  split
  · exact hc
  · split
    · exact hc
    · next head rest hlist =>
      split
      · next hhead =>
        have ⟨hsacked, hlost, hretrans, hexclusive⟩ := hc
        rw [hlist] at hsacked hlost hretrans hexclusive
        refine ⟨hsacked, hlost, ?_, ?_⟩
        · show s.retrans - head.size = sizeOf _ (_ :: rest)
          rw [hretrans, sizeOf_cons, if_pos hhead, sizeOf_cons]
          show _ = 0 + _
          ring
        · obtain ⟨h, hrest⟩ := forall_mem_cons.mp hexclusive
          exact forall_mem_cons.mpr ⟨h, hrest⟩
      · exact hc

theorem Counts.step {operation : Operation} (hc : Counts s) (hs : Layout s) (hclean : Clean s)
    (hsafe : ScoreboardSafe s operation) (hstep : s.step operation = .ok s') : Counts s' := by
  obtain ⟨⟨s₁, result⟩, h, heq⟩ := except_map_eq_ok.mp hstep
  cases heq
  cases hs.performs h with
  | setHeadSequence => exact ⟨hc.sackedOut, hc.lostOut, hc.retrans, hc.exclusive⟩
  | add p => exact hc.add p
  | sendsNothing => exact hc
  | sends hsends => exact hc.sends hclean hsends
  | discardUpTo hdiscard => exact hc.discardUpTo hs hclean hsafe hdiscard
  | update hupdate => exact hc.update hupdate
  | setSentListLost resetSack => exact hc.loseSentList hs resetSack
  | resetSentList => exact counts_resetSentList
  | resetLastSegmentSent => exact hc.resetLastSegmentSent hsafe
  | markHeadAsLost => exact hc.markHeadAsLost
  | addRenoSack hadd => exact hc.addRenoSack hsafe hadd
  | resetRenoSack => exact hc.resetRenoSack
  | deleteRetransmittedFlagFromHead => exact hc.deleteRetransmittedFlagFromHead
  | looks => exact hc

end Steps

/-! ## 7. Runs -/

section Runs

variable (n maxBuffer dupAckThresh segmentSize : BitVec 32) (sackEnabled : Bool)

/-- The counts are right all along a run whose steps put back no flagged segment and mark no lost
one. -/
theorem scoreboard_of_run {operations : List Operation} {s : TcpTxBuffer}
    (h : FallibleRun step ScoreboardSafe (initial n maxBuffer dupAckThresh segmentSize sackEnabled)
      operations s) : Scoreboard s := by
  have hsteps : ∀ s operation s', Layout s ∧ Clean s ∧ Counts s → ScoreboardSafe s operation →
      step s operation = .ok s' → Layout s' ∧ Clean s' ∧ Counts s' := by
    rintro s operation s' ⟨hs, hclean, hc⟩ hsafe hstep
    have hback : PutBackSafe s operation := by
      cases operation with
      | resetLastSegmentSent => exact hsafe
      | _ => trivial
    exact ⟨hs.step hstep, hclean.step hs hback hstep, hc.step hs hclean hsafe hstep⟩
  obtain ⟨hs, -, hc⟩ := h.invariant (fun s => Layout s ∧ Clean s ∧ Counts s) hsteps
    ⟨layout_initial _ _ _ _ _, List.forall_mem_nil _, counts_initial _ _ _ _ _⟩
  exact hc.scoreboard hs

end Runs

/-- The second segment is sacked and put back. -/
def putBackSacked : List Operation :=
  [.add ⟨[0, 0], by decide⟩, .copyFromSequence 1 ⟨10⟩ 0, .copyFromSequence 1 ⟨11⟩ 0,
    .update [(⟨11⟩, ⟨12⟩)], .resetLastSegmentSent]

/-- A byte that is not sent is counted as sacked. -/
theorem sacked_segment_put_back :
    ∃ s, putBackSacked.foldlM step (initial 10 100 3 1 true) = .ok s ∧ ¬Scoreboard s := by
  refine ⟨_, rfl, fun h => ?_⟩
  exact absurd h.sackedOut (by decide)

/-- A run with two segments, one of them sacked. -/
theorem scoreboard_of_run_two : ∃ s, putBackSacked.dropLast.foldlM step (initial 10 100 3 1 true) =
    .ok s ∧ Scoreboard s :=
  ⟨_, rfl, scoreboard_of_run 10 100 3 1 true
    (show FallibleRun step ScoreboardSafe (initial 10 100 3 1 true) putBackSacked.dropLast _ from
      .cons trivial rfl (.cons trivial rfl (.cons trivial rfl (.cons trivial rfl (.nil _)))))⟩

end MoeJit.Tcp
