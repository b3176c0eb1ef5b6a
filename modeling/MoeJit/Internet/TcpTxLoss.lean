import MoeJit.Internet.TcpTxScoreboard

/-!
# Loss detection from selective acknowledgements

`Update` marks the segments that the blocks cover, keeps the highest sacked one in `highestSack`
and, when something was newly sacked, goes down from there to find what is lost.

`loss_of_run`: in every state of a run of new segments and acknowledgements `highestSack` is what
`FindHighestSacked` returns, and a segment that is not sacked is lost exactly when enough are
sacked above it. It needs that no block sacks the segment directly below the highest one, which
takes its place (`highest_moves_down`), that no block is outside the sent part after something was
newly sacked, where `Update` returns before it looks for losses (`lost_not_counted`), that data is
not acknowledged up to a sacked segment, that less than half the space is sent, and a threshold
that is not `0`.
-/

namespace MoeJit.Tcp

open TcpTxBuffer List SequenceNumber32
open BitVec (ofNat ofNat_add toNat toNat_ofNat)
open SequenceNumber32 (add_assoc add_sub add_zero)

/-! ## 1. Statement -/

/-- The items that are not sacked are lost exactly when enough of those above are sacked. -/
def LostExact (thresh : Nat) : List TcpTxItem → Prop
  | [] => True
  | item :: above =>
    (item.sacked = false → (item.lost = true ↔ thresh ≤ above.countP TcpTxItem.sacked)) ∧
      LostExact thresh above

/-- The item when a block covers it. -/
def TcpTxItem.sackedNow (item : TcpTxItem) : TcpTxItem :=
  if item.sacked then item else { item with lost := false, sacked := true }

/-- The items after a block. The walk ends at an item that ends past the block. -/
def sackedBy (block : SackBlock) : SequenceNumber32 → List TcpTxItem → List TcpTxItem
  | _, [] => []
  | start, item :: rest =>
    if start.ge block.1 && (start + item.size).le block.2 then
      item.sackedNow :: sackedBy block (start + item.size) rest
    else if (start + item.size).gt block.2 then item :: rest
    else item :: sackedBy block (start + item.size) rest

/-- The item directly below the highest sacked one is not newly sacked, unless one above is. -/
def KeepsHighest : List TcpTxItem → List TcpTxItem → Prop
  | item :: highest :: above, item' :: highest' :: above' =>
    (item.sacked = false → item'.sacked = true → highest.sacked = true →
      (∀ item ∈ above, item.sacked = false) → ∃ item ∈ above', item.sacked = true) ∧
      KeepsHighest (highest :: above) (highest' :: above')
  | _, _ => True

instance decidableKeepsHighest : ∀ items items', Decidable (KeepsHighest items items')
  | [], _ => isTrue trivial
  | [_], _ => isTrue trivial
  | _ :: _ :: _, [] => isTrue trivial
  | _ :: _ :: _, [_] => isTrue trivial
  | _ :: highest :: above, _ :: highest' :: above' =>
    have := decidableKeepsHighest (highest :: above) (highest' :: above')
    inferInstanceAs (Decidable (_ ∧ _))

/-- The blocks in turn, from the items after those before. A block outside the sent part does not
follow one that newly sacked something. -/
def BlocksSafe (s : TcpTxBuffer) : List SackBlock → List TcpTxItem → Prop
  | [], _ => True
  | block :: blocks, items =>
    if (s.firstByteSeq + s.sentSize).lt block.1 then items = s.sentList
    else
      KeepsHighest items (sackedBy block s.firstByteSeq items) ∧
        BlocksSafe s blocks (sackedBy block s.firstByteSeq items)

instance decidableBlocksSafe (s : TcpTxBuffer) :
    ∀ blocks items, Decidable (BlocksSafe s blocks items)
  | [], _ => isTrue trivial
  | block :: blocks, items =>
    have := decidableBlocksSafe s blocks (sackedBy block s.firstByteSeq items)
    inferInstanceAs (Decidable (if (s.firstByteSeq + s.sentSize).lt block.1 then items = s.sentList
      else KeepsHighest items (sackedBy block s.firstByteSeq items) ∧
        BlocksSafe s blocks (sackedBy block s.firstByteSeq items)))

/-- What no operation changes. -/
def TcpTxBuffer.settings (s : TcpTxBuffer) : BitVec 32 × BitVec 32 := (s.dupAckThresh, s.segmentSize)

/-- New data, new segments and acknowledgements. -/
def LossOperation (s : TcpTxBuffer) : Operation → Prop
  | .add _ => True
  | .copyFromSequence _ seq _ => seq = s.firstByteSeq + s.sentSize
  | .discardUpTo _ _ => True
  | .update _ => True
  | _ => False

/-- Less than half the space is sent, the blocks are safe and data is acknowledged up to a segment
that is not sacked. -/
def LossSafe (s : TcpTxBuffer) : Operation → Prop
  | .discardUpTo seq _ => s.sentSize.toNat < 2 ^ 31 ∧
    ∀ head ∈ (itemsFrom (seq - s.firstByteSeq).toNat s.sentList).head?, head.sacked = false
  | .update list => s.sentSize.toNat < 2 ^ 31 ∧ BlocksSafe s list s.sentList
  | _ => True

/-! ## 2. The highest sacked item -/

def Unsacked (items : List TcpTxItem) : Prop := ∀ item ∈ items, item.sacked = false

variable {item sent : TcpTxItem}

theorem unsacked_cons {items : List TcpTxItem} :
    Unsacked (item :: items) ↔ item.sacked = false ∧ Unsacked items := forall_mem_cons

theorem countP_of_unsacked {items : List TcpTxItem} (h : Unsacked items) :
    items.countP TcpTxItem.sacked = 0 :=
  countP_eq_zero.mpr fun item hitem => Bool.eq_false_iff.mp (h item hitem)

theorem highest_cases (items : List TcpTxItem) : Unsacked items ∨ ∃ below highest above,
    items = below ++ highest :: above ∧ highest.sacked = true ∧ Unsacked above := by
  induction items with
  | nil => exact .inl (forall_mem_nil _)
  | cons item items ih =>
    rcases ih with hnone | ⟨below, highest, above, rfl, hhighest, habove⟩
    · cases hitem : item.sacked with
      | false => exact .inl (unsacked_cons.mpr ⟨hitem, hnone⟩)
      | true => exact .inr ⟨[], item, items, rfl, hitem, hnone⟩
    · exact .inr ⟨item :: below, highest, above, rfl, hhighest, habove⟩

section Highest

variable {start : SequenceNumber32} {items items' below above : List TcpTxItem}
  {highest : TcpTxItem} {ret : Option Nat × SequenceNumber32}

theorem findHighestSackedFrom_append : findHighestSackedFrom start (items ++ items') ret =
      findHighestSackedFrom (start + ofNat 32 (bytesOf items).length) items'
        (findHighestSackedFrom start items ret) := by
  induction items generalizing start ret with
  | nil =>
    show findHighestSackedFrom start items' ret = findHighestSackedFrom (start + 0#32) items' ret
    rw [add_zero]
  | cons item items ih =>
    show findHighestSackedFrom (start + item.size) (items ++ items') _ = _
    rw [ih, add_size_add, bytesOf_cons, length_append]
    rfl

theorem findHighestSackedFrom_unsacked (h : Unsacked items) :
    findHighestSackedFrom start items ret = ret := by
  induction items generalizing start ret with
  | nil => rfl
  | cons item items ih =>
    obtain ⟨hitem, hitems⟩ := unsacked_cons.mp h
    unfold findHighestSackedFrom
    rw [hitem, if_neg Bool.false_ne_true]
    exact ih hitems

theorem findHighestSackedFrom_highest (hhighest : highest.sacked = true)
    (habove : Unsacked above) : findHighestSackedFrom start (below ++ highest :: above) ret =
      (some highest.node, start + ofNat 32 (bytesOf below).length) := by
  rw [findHighestSackedFrom_append]
  unfold findHighestSackedFrom
  rw [if_pos hhighest]
  exact findHighestSackedFrom_unsacked habove

theorem findHighestSackedFrom_congr (h : ¬Unsacked items) (ret' : Option Nat × SequenceNumber32) :
    findHighestSackedFrom start items ret = findHighestSackedFrom start items ret' := by
  rcases highest_cases items with hnone | ⟨below, highest, above, rfl, hhighest, habove⟩
  · exact absurd hnone h
  · rw [findHighestSackedFrom_highest hhighest habove, findHighestSackedFrom_highest hhighest habove]

theorem findHighestSackedFrom_map
    (h : items'.map (fun item => (item.sacked, item.node, item.packet)) =
      items.map fun item => (item.sacked, item.node, item.packet)) :
    findHighestSackedFrom start items' ret = findHighestSackedFrom start items ret := by
  induction items generalizing items' start ret with
  | nil => rw [map_eq_nil_iff.mp h]
  | cons item items ih =>
    obtain ⟨item', items'', rfl, hitem, hrest⟩ := map_eq_cons_iff.mp h
    obtain ⟨hsacked, hnode, hpkt⟩ := Prod.mk.inj hitem |>.imp id Prod.mk.inj
    unfold findHighestSackedFrom
    rw [hsacked, hnode, TcpTxItem.size, hpkt]
    exact ih hrest

end Highest

/-! ## 3. One block -/

section Block

variable {s s' : TcpTxBuffer} {block : SackBlock} {first start : SequenceNumber32} {offset : Nat}
  {items items' below above : List TcpTxItem} {highest : TcpTxItem} {bytes bytes' : BitVec 32}

/-- The items are those of `sackedBy`, and the bytes those that it newly sacks. -/
theorem sackItems_eq (h : sackItems block start items (s, bytes) = .ok (items', s', bytes')) :
    items' = sackedBy block start items ∧
      bytes' + sizeOf (·.sacked) items = bytes + sizeOf (·.sacked) items' ∧
      s'.nodes = s.nodes ∧ s'.settings = s.settings := by
  induction items generalizing start s bytes items' with
  | nil =>
    cases h
    exact ⟨rfl, rfl, rfl, rfl⟩
  | cons item rest ih =>
    unfold sackItems at h
    unfold sackedBy
    split at h
    · next hcovered =>
      rw [if_pos hcovered]
      unfold TcpTxItem.sackedNow
      split at h
      · next hsacked =>
        split at h
        · cases h
        · obtain ⟨⟨rest', result⟩, hrest, heq⟩ := except_bind_eq_ok.mp h
          cases heq
          obtain ⟨hmarked, hbytes, hsame⟩ := ih hrest
          rw [if_pos hsacked, ← hmarked, sizeOf_cons, sizeOf_cons]
          refine ⟨rfl, ?_, hsame⟩
          linear_combination hbytes
      · next hsacked =>
        obtain ⟨⟨rest', result⟩, hrest, heq⟩ := except_bind_eq_ok.mp h
        cases heq
        obtain ⟨hmarked, hbytes, hsame⟩ := ih hrest
        rw [if_neg hsacked, ← hmarked, sizeOf_cons, if_neg hsacked, sizeOf_cons]
        refine ⟨rfl, ?_, hsame⟩
        show _ = bytes + (item.size + _)
        linear_combination hbytes
    · next hcovered =>
      rw [if_neg hcovered]
      split at h
      · next hpast =>
        cases h
        rw [if_pos hpast]
        exact ⟨rfl, rfl, rfl, rfl⟩
      · next hpast =>
        obtain ⟨⟨rest', result⟩, hrest, heq⟩ := except_bind_eq_ok.mp h
        cases heq
        obtain ⟨hmarked, hbytes, hsame⟩ := ih hrest
        rw [if_neg hpast, ← hmarked, sizeOf_cons, sizeOf_cons]
        refine ⟨rfl, ?_, hsame⟩
        linear_combination hbytes

/-- Above the highest sacked item every item that is newly sacked is the highest. -/
theorem sackItems_above (hlen : offset + (bytesOf items).length < 2 ^ 31)
    (hitems : Unsacked items) (hbehind : s.highestSack.1 = none ∨
      ∃ k, k ≤ offset ∧ s.highestSack.2 = first + ofNat 32 k)
    (h : sackItems block (first + ofNat 32 offset) items (s, bytes) = .ok (items', s', bytes')) :
    s'.highestSack = findHighestSackedFrom (first + ofNat 32 offset) items' s.highestSack := by
  induction items generalizing offset s bytes items' with
  | nil =>
    cases h
    rfl
  | cons item rest ih =>
    obtain ⟨hitem, hrest⟩ := unsacked_cons.mp hitems
    rw [bytesOf_cons, length_append] at hlen
    have hnext : first + ofNat 32 offset + item.size =
        first + ofNat 32 (offset + item.packet.length) := by
      rw [add_ofNat_add, toNat_size (by omega)]
    unfold sackItems at h
    rw [hnext] at h
    split at h
    · rw [hitem, if_neg Bool.false_ne_true] at h
      obtain ⟨⟨rest', result⟩, hwalk, heq⟩ := except_bind_eq_ok.mp h
      cases heq
      have hle : s.highestSack.1 = none ∨
          s.highestSack.2.le (first + ofNat 32 (offset + item.packet.length)) = true := by
        refine hbehind.imp_right fun hsome => ?_
        obtain ⟨k, hk, heq⟩ := hsome
        rw [heq, le_add_ofNat first (by omega) (by omega)]
        exact decide_eq_true (by omega)
      rw [if_pos hle] at hwalk
      have hrec := ih (by omega) hrest (.inr ⟨offset, Nat.le_add_right _ _, rfl⟩) hwalk
      rw [hrec]
      conv => rhs; unfold findHighestSackedFrom
      rw [if_pos rfl, ← hnext]
      rfl
    · split at h
      · cases h
        exact (findHighestSackedFrom_unsacked hitems).symm
      · obtain ⟨⟨rest', result⟩, hwalk, heq⟩ := except_bind_eq_ok.mp h
        cases heq
        have hbehind' : s.highestSack.1 = none ∨ ∃ k, k ≤ offset + item.packet.length ∧
            s.highestSack.2 = first + ofNat 32 k := by
          refine hbehind.imp_right fun hsome => ?_
          obtain ⟨k, hk, heq⟩ := hsome
          exact ⟨k, Nat.le_add_right_of_le hk, heq⟩
        have hrec := ih (by omega) hrest hbehind' hwalk
        rw [hrec]
        conv => rhs; unfold findHighestSackedFrom
        rw [hitem, if_neg Bool.false_ne_true, ← hnext]

theorem sackItems_highest (hlen : offset + (bytesOf (highest :: above)).length < 2 ^ 31)
    (hhighest : highest.sacked = true) (habove : Unsacked above)
    (hbehind : ∃ k, k ≤ offset ∧ s.highestSack.2 = first + ofNat 32 k)
    (h : sackItems block (first + ofNat 32 offset) (highest :: above) (s, bytes) =
      .ok (items', s', bytes')) : ∃ above', items' = highest :: above' ∧ s'.highestSack =
        findHighestSackedFrom (first + ofNat 32 offset + highest.size) above'
          s.highestSack := by
  obtain ⟨k, hk, heq⟩ := hbehind
  rw [bytesOf_cons, length_append] at hlen
  have hnext : first + ofNat 32 offset + highest.size =
      first + ofNat 32 (offset + highest.packet.length) := by
    rw [add_ofNat_add, toNat_size (by omega)]
  have hrest {rest' : List TcpTxItem}
      (hwalk : sackItems block (first + ofNat 32 offset + highest.size) above (s, bytes) =
        .ok (rest', s', bytes')) : s'.highestSack =
      findHighestSackedFrom (first + ofNat 32 offset + highest.size) rest' s.highestSack := by
    rw [hnext] at hwalk ⊢
    exact sackItems_above (by omega) habove (.inr ⟨k, Nat.le_add_right_of_le hk, heq⟩) hwalk
  unfold sackItems at h
  rw [if_pos hhighest] at h
  split at h
  · split at h
    · cases h
    · obtain ⟨⟨rest', result⟩, hwalk, heq⟩ := except_bind_eq_ok.mp h
      cases heq
      exact ⟨rest', rfl, hrest hwalk⟩
  · split at h
    · cases h
      exact ⟨above, rfl, (findHighestSackedFrom_unsacked habove).symm⟩
    · obtain ⟨⟨rest', result⟩, hwalk, heq⟩ := except_bind_eq_ok.mp h
      cases heq
      exact ⟨rest', rfl, hrest hwalk⟩

theorem KeepsHighest.tail {item' : TcpTxItem} (h : KeepsHighest (item :: items) (item' :: items')) :
    KeepsHighest items items' := by
  cases items with
  | nil => trivial
  | cons highest above =>
    cases items' with
    | nil =>
      cases above with
      | nil => trivial
      | cons => trivial
    | cons => exact h.2

/-- Below the highest sacked item only the item directly below it can take its place. -/
theorem sackItems_below (hne : Nonempty below)
    (hlen : offset + (bytesOf (below ++ highest :: above)).length < 2 ^ 31)
    (hhighest : highest.sacked = true) (habove : Unsacked above)
    (hsack : s.highestSack =
      (some highest.node, first + ofNat 32 (offset + (bytesOf below).length)))
    (h : sackItems block (first + ofNat 32 offset) (below ++ highest :: above) (s, bytes) =
      .ok (items', s', bytes')) (hkeeps : KeepsHighest (below ++ highest :: above) items')
    (ret : Option Nat × SequenceNumber32) :
    s'.highestSack = findHighestSackedFrom (first + ofNat 32 offset) items' ret := by
  induction below generalizing offset s bytes items' ret with
  | nil =>
    obtain ⟨above', rfl, hfound⟩ := sackItems_highest hlen hhighest habove
      ⟨offset, Nat.le_refl _, congrArg Prod.snd hsack⟩ h
    rw [hfound, hsack]
    conv => rhs; unfold findHighestSackedFrom
    rw [if_pos hhighest]
    rfl
  | cons item below ih =>
    obtain ⟨hpos, hne⟩ := nonempty_cons.mp hne
    have hfirst : s.highestSack =
        findHighestSackedFrom (first + ofNat 32 offset) (item :: below ++ highest :: above)
          ret := by
      rw [hsack, findHighestSackedFrom_highest hhighest habove, add_assoc, ofNat_add]
    rw [cons_append, bytesOf_cons, length_append] at hlen
    rw [bytesOf_cons, length_append, ← Nat.add_assoc] at hsack
    have hnext : first + ofNat 32 offset + item.size =
        first + ofNat 32 (offset + item.packet.length) := by
      rw [add_ofNat_add, toNat_size (by omega)]
    -- the walk from the next item on, when the highest item is still the same
    have hrest {s₁ : TcpTxBuffer} {bytes₁ : BitVec 32} {item' : TcpTxItem} {rest' : List TcpTxItem}
        (hwalk : sackItems block (first + ofNat 32 (offset + item.packet.length))
          (below ++ highest :: above) (s₁, bytes₁) = .ok (rest', s', bytes'))
        (hsame : s₁.highestSack = s.highestSack) (hsize : item'.size = item.size)
        (hkeeps : KeepsHighest (item :: (below ++ highest :: above)) (item' :: rest')) :
        s'.highestSack = findHighestSackedFrom (first + ofNat 32 offset) (item' :: rest') ret := by
      rw [ih hne (by omega) (hsame.trans hsack) hwalk hkeeps.tail
        (if item'.sacked then (some item'.node, first + ofNat 32 offset) else ret), ← hnext,
        ← hsize]
      rfl
    rw [cons_append] at h hkeeps hfirst
    unfold sackItems at h
    rw [hnext] at h
    split at h
    · split at h
      · split at h
        · cases h
        · obtain ⟨⟨rest', result⟩, hwalk, heq⟩ := except_bind_eq_ok.mp h
          cases heq
          exact hrest hwalk rfl rfl hkeeps
      · next hitem =>
        obtain ⟨⟨rest', result⟩, hwalk, heq⟩ := except_bind_eq_ok.mp h
        cases heq
        cases below with
        | nil =>
          -- the item directly below: one above it is newly sacked and is the highest in the end
          have hle : s.highestSack.2.le
              (first + ofNat 32 (offset + item.packet.length)) = true := by
            rw [hsack, bytesOf_nil, length_nil, Nat.add_zero]
            exact (le_add_ofNat first (by omega) (by omega)).trans (decide_eq_true (Nat.le_refl _))
          rw [if_pos (.inr hle)] at hwalk
          obtain ⟨above', rfl, hfound⟩ := sackItems_highest (by
            rw [nil_append] at hlen
            omega) hhighest habove ⟨offset, Nat.le_add_right _ _, rfl⟩ hwalk
          obtain ⟨x, hx, hsacked⟩ := hkeeps.1 (Bool.eq_false_iff.mpr hitem) rfl hhighest habove
          have hmany : ¬Unsacked above' := fun hnone => by
            rw [hnone x hx] at hsacked
            cases hsacked
          rw [hfound, ← hnext]
          exact findHighestSackedFrom_congr hmany _
        | cons next below =>
          have hnot : ¬(s.highestSack.1 = none ∨ s.highestSack.2.le
              (first + ofNat 32 (offset + item.packet.length)) = true) := by
            obtain ⟨hnext, -⟩ := nonempty_cons.mp hne
            rw [cons_append, bytesOf_cons, length_append, bytesOf_append, length_append] at hlen
            rw [hsack, bytesOf_cons, length_append]
            refine not_or.mpr ⟨Option.some_ne_none _, Bool.eq_false_iff.mp ?_⟩
            exact (le_add_ofNat first (by omega) (by omega)).trans (decide_eq_false (by omega))
          rw [if_neg hnot] at hwalk
          exact hrest hwalk rfl rfl hkeeps
    · split at h
      · cases h
        exact hfirst
      · obtain ⟨⟨rest', result⟩, hwalk, heq⟩ := except_bind_eq_ok.mp h
        cases heq
        exact hrest hwalk rfl rfl hkeeps

theorem sackItems_findHighest (hne : Nonempty items)
    (hlen : (bytesOf items).length < 2 ^ 31)
    (hsack : s.highestSack = findHighestSackedFrom first items noSack)
    (h : sackItems block first items (s, bytes) = .ok (items', s', bytes'))
    (hkeeps : KeepsHighest items items') :
    s'.highestSack = findHighestSackedFrom first items' noSack := by
  have hstart : first + ofNat 32 0 = first := add_zero first
  rw [← hstart] at h
  rcases highest_cases items with hnone | ⟨below, highest, above, rfl, hhighest, habove⟩
  · rw [findHighestSackedFrom_unsacked hnone] at hsack
    have hfound := sackItems_above (by omega) hnone (.inl (congrArg Prod.fst hsack)) h
    rw [hsack, hstart] at hfound
    exact hfound
  · rw [findHighestSackedFrom_highest hhighest habove] at hsack
    have hfound := sackItems_below (nonempty_append.mp hne).1 (by omega) hhighest habove
      (by rw [zero_add]; exact hsack) h hkeeps noSack
    rw [hstart] at hfound
    exact hfound

end Block

/-! ## 4. Flags -/

/-- A block changes nothing or marks the item. -/
def Marks (item item' : TcpTxItem) : Prop := item' = item ∨ item' = item.sackedNow

theorem sackedNow_of_sacked (h : item.sacked = true) : item.sackedNow = item := if_pos h

theorem sackedNow_sacked (item : TcpTxItem) : item.sackedNow.sacked = true := by
  unfold TcpTxItem.sackedNow
  split
  · next h => exact h
  · rfl

theorem sackedNow_same (item : TcpTxItem) :
    item.sackedNow.node = item.node ∧ item.sackedNow.packet = item.packet := by
  unfold TcpTxItem.sackedNow
  split
  · exact ⟨rfl, rfl⟩
  · exact ⟨rfl, rfl⟩

theorem Marks.trans {item' item'' : TcpTxItem} (h : Marks item item') (h' : Marks item' item'') :
    Marks item item'' := by
  rcases h with rfl | rfl
  · exact h'
  · refine .inr ?_
    rcases h' with rfl | rfl
    · rfl
    · exact sackedNow_of_sacked (sackedNow_sacked item)

theorem marks_trans {items items' items'' : List TcpTxItem} (h : List.Forall₂ Marks items items')
    (h' : List.Forall₂ Marks items' items'') : List.Forall₂ Marks items items'' := by
  induction h generalizing items'' with
  | nil => exact h'
  | cons hitem _ ih =>
    cases h' with
    | cons hitem' hrest' => exact .cons (hitem.trans hitem') (ih hrest')

theorem sackedBy_marks (block : SackBlock) (start : SequenceNumber32) (items : List TcpTxItem) :
    List.Forall₂ Marks items (sackedBy block start items) := by
  induction items generalizing start with
  | nil => exact .nil
  | cons item rest ih =>
    unfold sackedBy
    split
    · exact .cons (.inr rfl) (ih _)
    · split
      · exact .cons (.inl rfl) (forall₂_same.mpr fun _ _ => .inl rfl)
      · exact .cons (.inl rfl) (ih _)

/-- What is lost has enough sacked items above. -/
def LostSound (thresh : Nat) : List TcpTxItem → Prop
  | [] => True
  | item :: above =>
    (item.sacked = false → item.lost = true → thresh ≤ above.countP TcpTxItem.sacked) ∧
      LostSound thresh above

section Flags

variable {items items' : List TcpTxItem} {thresh : Nat}

theorem LostExact.sound (h : LostExact thresh items) : LostSound thresh items := by
  induction items with
  | nil => trivial
  | cons item above ih => exact ⟨fun hsacked => (h.1 hsacked).mp, ih h.2⟩

theorem LostSound.suffix {before : List TcpTxItem} (h : LostSound thresh (before ++ items)) :
    LostSound thresh items := by
  induction before with
  | nil => exact h
  | cons item before ih => exact ih h.2

theorem lostSound_of_not_lost (h : ∀ item ∈ items, item.sacked = false → item.lost = false) :
    LostSound thresh items := by
  induction items with
  | nil => trivial
  | cons item items ih =>
    obtain ⟨hitem, hitems⟩ := forall_mem_cons.mp h
    exact ⟨fun hsacked hlost => Bool.noConfusion ((hitem hsacked).symm.trans hlost), ih hitems⟩

theorem lostExact_of_unsacked (hthresh : 0 < thresh) (hitems : Unsacked items)
    (h : LostSound thresh items) : LostExact thresh items := by
  induction items with
  | nil => trivial
  | cons item above ih =>
    obtain ⟨-, habove⟩ := unsacked_cons.mp hitems
    have hcount := countP_of_unsacked habove
    refine ⟨fun hsacked => ⟨fun hlost => h.1 hsacked hlost, fun hle => ?_⟩, ih habove h.2⟩
    omega

theorem countP_le_of_marks (h : List.Forall₂ Marks items items') :
    items.countP TcpTxItem.sacked ≤ items'.countP TcpTxItem.sacked := by
  induction h with
  | nil => exact Nat.le_refl _
  | @cons item item' _ _ hitem _ ih =>
    rw [countP_cons, countP_cons]
    refine Nat.add_le_add ih ?_
    rcases hitem with rfl | rfl
    · exact Nat.le_refl _
    · rw [sackedNow_sacked]
      split
      · exact Nat.le_refl _
      · exact Nat.zero_le _

theorem LostSound.marks (hsound : LostSound thresh items) (h : List.Forall₂ Marks items items') :
    LostSound thresh items' := by
  induction h with
  | nil => trivial
  | cons hitem hrest ih =>
    refine ⟨fun hsacked hlost => ?_, ih hsound.2⟩
    rcases hitem with rfl | rfl
    · exact le_trans (hsound.1 hsacked hlost) (countP_le_of_marks hrest)
    · rw [sackedNow_sacked] at hsacked
      cases hsacked

section

variable (h : List.Forall₂ Marks items items')
include h

theorem lengthOf_le_of_marks : lengthOf (·.sacked) items ≤ lengthOf (·.sacked) items' := by
  induction h with
  | nil => exact Nat.le_refl _
  | @cons item item' _ _ hitem _ ih =>
    rw [lengthOf_cons, lengthOf_cons]
    refine Nat.add_le_add ?_ ih
    rcases hitem with rfl | rfl
    · exact Nat.le_refl _
    · rw [sackedNow_sacked, (sackedNow_same item).2]
      split
      · exact Nat.le_refl _
      · exact Nat.zero_le _

theorem eq_of_marks (hne : Nonempty items)
    (hlen : lengthOf (·.sacked) items' = lengthOf (·.sacked) items) : items' = items := by
  induction h with
  | nil => rfl
  | @cons item item' rest rest' hitem hrest ih =>
    obtain ⟨hpos, hrestNonempty⟩ := nonempty_cons.mp hne
    have hle := lengthOf_le_of_marks hrest
    rw [lengthOf_cons, lengthOf_cons] at hlen
    have hsame : item' = item := by
      rcases hitem with rfl | rfl
      · rfl
      · cases hsacked : item.sacked with
        | true => exact sackedNow_of_sacked hsacked
        | false =>
          rw [sackedNow_sacked, (sackedNow_same item).2, hsacked, if_pos rfl,
            if_neg Bool.false_ne_true] at hlen
          omega
    rw [hsame] at hlen ⊢
    rw [ih hrestNonempty (Nat.add_left_cancel hlen)]

theorem nodes_of_marks : items'.map TcpTxItem.node = items.map TcpTxItem.node := by
  induction h with
  | nil => rfl
  | @cons item item' _ _ hitem _ ih =>
    rw [map_cons, map_cons, ih]
    rcases hitem with rfl | rfl
    · rfl
    · rw [(sackedNow_same item).1]

end

end Flags

/-! ## 5. `Update` -/

section Update

variable {s s' : TcpTxBuffer} {bytes bytes' : BitVec 32}

/-- What the blocks do to the items, and how many bytes they sack. -/
theorem updateBlocks_marks {blocks : List SackBlock} {outside : Bool}
    (h : updateBlocks blocks (s, bytes) = .ok ((s', bytes'), outside)) :
    List.Forall₂ Marks s.sentList s'.sentList ∧
      bytes' + sizeOf (·.sacked) s.sentList = bytes + sizeOf (·.sacked) s'.sentList ∧
      s'.nodes = s.nodes ∧ s'.settings = s.settings := by
  induction blocks generalizing s bytes with
  | nil =>
    cases h
    exact ⟨forall₂_same.mpr fun _ _ => .inl rfl, rfl, rfl, rfl⟩
  | cons block blocks ih =>
    unfold updateBlocks at h
    split at h
    · cases h
      exact ⟨forall₂_same.mpr fun _ _ => .inl rfl, rfl, rfl, rfl⟩
    · obtain ⟨⟨items, s₁, bytes₁⟩, hitems, h⟩ := except_bind_eq_ok.mp h
      obtain ⟨hmarked, hbytes, hnodes, hthresh⟩ := sackItems_eq hitems
      obtain ⟨hmarks, hbytes', hnodes', hthresh'⟩ := ih h
      have hfirstMarks : List.Forall₂ Marks s.sentList items := by
        rw [hmarked]
        exact sackedBy_marks _ _ _
      refine ⟨marks_trans hfirstMarks hmarks, ?_, hnodes'.trans hnodes, hthresh'.trans hthresh⟩
      linear_combination hbytes + hbytes'

theorem updateBlocks_loss {s₀ : TcpTxBuffer} {blocks : List SackBlock} {outside : Bool}
    (hs : Layout s) (hfirst : s.firstByteSeq = s₀.firstByteSeq) (hsent : s.sentSize = s₀.sentSize)
    (hsmall : s.sentSize.toNat < 2 ^ 31) (hsack : s.highestSack = s.findHighestSacked)
    (hsafe : BlocksSafe s₀ blocks s.sentList)
    (h : updateBlocks blocks (s, bytes) = .ok ((s', bytes'), outside)) :
    s'.highestSack = s'.findHighestSacked ∧ (outside = true → s'.sentList = s₀.sentList) := by
  induction blocks generalizing s bytes with
  | nil =>
    cases h
    exact ⟨hsack, Bool.noConfusion⟩
  | cons block blocks ih =>
    unfold updateBlocks at h
    unfold BlocksSafe at hsafe
    rw [← hfirst, ← hsent] at hsafe
    split at h
    · next houtside =>
      cases h
      rw [if_pos houtside] at hsafe
      exact ⟨hsack, fun _ => hsafe⟩
    · next hinside =>
      rw [if_neg hinside] at hsafe
      obtain ⟨⟨items, s₁, bytes₁⟩, hitems, h⟩ := except_bind_eq_ok.mp h
      have hmarked := (sackItems_eq hitems).1
      obtain ⟨hsegments, -, hsame⟩ := sackItems_relabelled hitems
      rw [← hmarked] at hsafe
      have hput : Relabelled s { s₁ with sentList := items } :=
        ⟨hsegments, hsame.appList, hsame.size, hsame.sentSize, hsame.firstByteSeq, hsame.maxBuffer⟩
      have hsack₁ : s₁.highestSack = findHighestSackedFrom s.firstByteSeq items noSack :=
        sackItems_findHighest hs.nonempty_sent (hs.sentSize ▸ hsmall) hsack hitems hsafe.1
      rw [← hsame.firstByteSeq] at hsack₁
      exact ih (hput.layout hs) (hsame.firstByteSeq.trans hfirst) (hsame.sentSize.trans hsent)
        (show s₁.sentSize.toNat < 2 ^ 31 by rw [hsame.sentSize]; exact hsmall) hsack₁ hsafe.2 h

theorem unsacked_above {start : SequenceNumber32} {items below above : List TcpTxItem}
    (hnodup : (items.map TcpTxItem.node).Nodup) (hitems : items = below ++ item :: above)
    (hfind : (findHighestSackedFrom start items noSack).1 = some item.node) : Unsacked above := by
  rcases highest_cases above with hnone | ⟨between, highest, rest, rfl, hhighest, hrest⟩
  · exact hnone
  · have hsplit : items = (below ++ item :: between) ++ highest :: rest := by
      rw [hitems, append_assoc, cons_append]
    rw [hsplit, findHighestSackedFrom_highest hhighest hrest] at hfind
    have hnode : highest.node = item.node := Option.some.inj hfind
    rw [hsplit, map_append] at hnodup
    have hlow : item.node ∈ (below ++ item :: between).map TcpTxItem.node :=
      mem_map_of_mem (mem_append_right _ mem_cons_self)
    have hhigh : item.node ∈ (highest :: rest).map TcpTxItem.node :=
      hnode ▸ mem_map_of_mem mem_cons_self
    exact absurd hhigh (disjoint_of_nodup_append hnodup hlow)

theorem foldr_markLost_exact {thresh : BitVec 32} {walked above : List TcpTxItem}
    (habove : Unsacked above) (hexact : LostExact thresh.toNat above)
    (hsound : LostSound thresh.toNat (walked ++ above)) (lostOut : BitVec 32) :
    let counted := walked.foldr (markLost thresh) ([], 0, lostOut)
    counted.2.1 = walked.countP TcpTxItem.sacked ∧
      counted.1.countP TcpTxItem.sacked = walked.countP TcpTxItem.sacked ∧
      LostExact thresh.toNat (counted.1 ++ above) := by
  induction walked with
  | nil => exact ⟨rfl, rfl, hexact⟩
  | cons item walked ih =>
    obtain ⟨hcount, hsame, hexact⟩ := ih hsound.2
    dsimp only
    rw [foldr_cons, markLost_eq]
    have hall : (walked ++ above).countP TcpTxItem.sacked = walked.countP TcpTxItem.sacked := by
      rw [countP_append, countP_of_unsacked habove, Nat.add_zero]
    have hmarked : ((walked.foldr (markLost thresh) ([], 0, lostOut)).1 ++ above).countP
        TcpTxItem.sacked = walked.countP TcpTxItem.sacked := by
      rw [countP_append, hsame, countP_of_unsacked habove, Nat.add_zero]
    refine ⟨?_, ?_, ?_, hexact⟩
    · rw [countP_cons, hcount]
      dsimp only
      split
      · rfl
      · rfl
    · rw [countP_cons, countP_cons, hsame]
    · intro hsacked
      replace hsacked : item.sacked = false := hsacked
      show (item.lost || (!item.sacked && thresh.toNat ≤
          (walked.foldr (markLost thresh) ([], 0, lostOut)).2.1)) = true ↔ thresh.toNat ≤
        ((walked.foldr (markLost thresh) ([], 0, lostOut)).1 ++ above).countP TcpTxItem.sacked
      rw [hmarked, hcount, hsacked, Bool.or_eq_true, Bool.not_false, Bool.true_and,
        decide_eq_true_eq]
      constructor
      · rintro (hlost | hle)
        · exact hall ▸ hsound.1 hsacked hlost
        · exact hle
      · intro hle
        exact .inr hle

theorem foldr_markLost_map {α : Type} (f : TcpTxItem → α)
    (hf : ∀ (item : TcpTxItem) (lost : Bool), f { item with lost := lost } = f item)
    (thresh : BitVec 32) (walked : List TcpTxItem) (lostOut : BitVec 32) :
    (walked.foldr (markLost thresh) ([], 0, lostOut)).1.map f = walked.map f := by
  induction walked with
  | nil => rfl
  | cons item walked ih =>
    rw [foldr_cons, markLost_eq, map_cons, map_cons, ih, hf]

theorem lostExact_marked {thresh : BitVec 32} {head : TcpTxItem} {walked above : List TcpTxItem}
    (habove : Unsacked above) (hexact : LostExact thresh.toNat above)
    (hsound : LostSound thresh.toNat (head :: (walked ++ above))) (lostOut : BitVec 32) :
    let counted := walked.foldr (markLost thresh) ([], 0, lostOut)
    LostExact thresh.toNat ({ head with lost := head.lost || thresh.toNat ≤ counted.2.1 } ::
      (counted.1 ++ above)) := by
  obtain ⟨hcount, hsame, hexact⟩ := foldr_markLost_exact habove hexact hsound.2 lostOut
  refine ⟨fun hhead => ?_, hexact⟩
  have hall : ((walked.foldr (markLost thresh) ([], 0, lostOut)).1 ++ above).countP
      TcpTxItem.sacked = walked.countP TcpTxItem.sacked := by
    rw [countP_append, hsame, countP_of_unsacked habove, Nat.add_zero]
  have hold : (walked ++ above).countP TcpTxItem.sacked = walked.countP TcpTxItem.sacked := by
    rw [countP_append, countP_of_unsacked habove, Nat.add_zero]
  show (head.lost || thresh.toNat ≤
      (walked.foldr (markLost thresh) ([], 0, lostOut)).2.1) = true ↔ thresh.toNat ≤
    ((walked.foldr (markLost thresh) ([], 0, lostOut)).1 ++ above).countP TcpTxItem.sacked
  rw [hall, hcount, Bool.or_eq_true, decide_eq_true_eq]
  constructor
  · rintro (hlost | hle)
    · exact hold ▸ hsound.1 hhead hlost
    · exact hle
  · intro hle
    exact .inr hle

theorem updateLostCount_same (h : s.updateLostCount = .ok s') : (∀ {α : Type} (f : TcpTxItem → α),
      (∀ (item : TcpTxItem) (lost : Bool), f { item with lost := lost } = f item) →
        s'.sentList.map f = s.sentList.map f) ∧
      s'.highestSack = s.highestSack ∧ s'.nodes = s.nodes ∧ s'.settings = s.settings := by
  obtain ⟨node, head, walked, above, -, hwalk, rfl⟩ := updateLostCount_ok h
  refine ⟨fun f hf => ?_, rfl, rfl, rfl⟩
  rw [(upTo_ok hwalk).1, map_cons, map_append, foldr_markLost_map f hf, hf, map_append, map_cons]
  rfl

theorem updateLostCount_loss (hnodup : (s.sentList.map TcpTxItem.node).Nodup)
    (hsack : s.highestSack = s.findHighestSacked) (h : s.updateLostCount = .ok s') :
    s'.highestSack = s'.findHighestSacked ∧
      (0 < s.dupAckThresh.toNat → LostSound s.dupAckThresh.toNat s.sentList →
        LostExact s.dupAckThresh.toNat s'.sentList) := by
  obtain ⟨hmap, -⟩ := updateLostCount_same h
  obtain ⟨node, head, walked, above, hnode, hwalk, rfl⟩ := updateLostCount_ok h
  obtain ⟨hlist, below, last, hwalked, hlast, -⟩ := upTo_ok hwalk
  refine ⟨?_, fun hthresh hsound => ?_⟩
  · refine hsack.trans (findHighestSackedFrom_map ?_).symm
    exact hmap (fun item => (item.sacked, item.node, item.packet)) (fun _ _ => rfl)
  · have habove : Unsacked above := by
      have hsplit : s.sentList = below ++ last :: above := by
        rw [hlist, hwalked, append_assoc, cons_append, nil_append]
      rw [hsack] at hnode
      exact unsacked_above hnodup hsplit (hlast ▸ hnode)
    rw [hlist] at hsound
    have hexact := lostExact_of_unsacked hthresh habove (LostSound.suffix hsound.2)
    exact lostExact_marked habove hexact hsound s.lostOut

end Update

/-! ## 6. New segments and discarded ones -/

section Discard

variable {s s' : TcpTxBuffer} {now : Int} {offset : BitVec 32}

/-- A new segment is the last one and has no flags. -/
structure Appends (s s' : TcpTxBuffer) (sent : TcpTxItem) : Prop where
  sentList : s'.sentList = s.sentList ++ [sent]
  unflagged : Unflagged sent
  node : s.nodes ≤ sent.node ∧ s'.nodes = sent.node + 1
  firstByteSeq : s'.firstByteSeq = s.firstByteSeq
  highestSack : s'.highestSack = s.highestSack
  settings : s'.settings = s.settings

theorem Appends.nodes (h : Appends s s' sent) (hnodup : (s.sentList.map TcpTxItem.node).Nodup)
    (hfresh : ∀ node ∈ s.sentList.map TcpTxItem.node, node < s.nodes) :
    (s'.sentList.map TcpTxItem.node).Nodup ∧
      ∀ node ∈ s'.sentList.map TcpTxItem.node, node < s'.nodes := by
  rw [h.sentList, map_append, h.node.2]
  constructor
  · refine nodup_append'.mpr ⟨hnodup, nodup_singleton _, fun node hnode hsent => ?_⟩
    have hlt := hfresh node hnode
    have heq : node = sent.node := mem_singleton.mp hsent
    have hle := h.node.1
    omega
  · refine forall_mem_append.mpr ⟨fun node hnode => ?_,
      forall_mem_singleton.mpr (Nat.lt_succ_self _)⟩
    exact Nat.lt_succ_of_lt (lt_of_lt_of_le (hfresh node hnode) h.node.1)

theorem Appends.head (h : Appends s s' sent)
    (hhead : ∀ head ∈ s.sentList.head?, head.sacked = false) :
    ∀ head ∈ s'.sentList.head?, head.sacked = false := by
  rw [h.sentList]
  intro head hmem
  cases hlist : s.sentList with
  | nil =>
    rw [hlist] at hmem
    cases hmem
    exact h.unflagged.1
  | cons first rest =>
    rw [hlist] at hmem hhead
    exact hhead head hmem

theorem Sends.appends (hs : Layout s) (hclean : Clean s) {numBytes : BitVec 32}
    {seq : SequenceNumber32} (hseq : seq = s.firstByteSeq + s.sentSize)
    (h : Sends s numBytes seq now s' sent) : Appends s s' sent := by
  cases h with
  | @new item rest retrans nodes _ hedit hnodes _ _ =>
    exact ⟨rfl, hedit.unflagged hclean item mem_cons_self, ⟨hnodes, rfl⟩, rfl, rfl, rfl⟩
  | @again item before after retrans nodes hedit hnodes hplace hlen hsacked =>
    have hbytes := congrArg List.length hedit.bytesOf_eq
    have hpos := hedit.nonempty hs.nonempty_sent item (mem_append_right _ mem_cons_self)
    rw [hseq, add_sub_self, hs.sentSize] at hplace
    rw [bytesOf_append, bytesOf_cons, length_append, length_append] at hbytes
    omega

/-- The items from an offset on, the first of them perhaps shorter. -/
inductive Keeps (items : List TcpTxItem) : Nat → List TcpTxItem → Prop
  | whole {before after : List TcpTxItem} (hlist : items = before ++ after) :
      Keeps items (bytesOf before).length after
  | part {before after : List TcpTxItem} {item : TcpTxItem} {size : BitVec 32}
      (hlist : items = before ++ item :: after) (hlt : size.toNat < item.packet.length) :
      Keeps items ((bytesOf before).length + size.toNat) (item.from size :: after)

theorem Keeps.cons {item : TcpTxItem} {items items' : List TcpTxItem} {n : Nat}
    (h : Keeps items n items') : Keeps (item :: items) (item.packet.length + n) items' := by
  cases h with
  | @whole before after hlist =>
    have hall := Keeps.whole (show item :: items = (item :: before) ++ items' by rw [hlist]; rfl)
    rw [bytesOf_cons, length_append] at hall
    exact hall
  | @part before after head size hlist hlt =>
    have hall := Keeps.part
      (show item :: items = (item :: before) ++ head :: after by rw [hlist]; rfl) hlt
    rw [bytesOf_cons, length_append, Nat.add_assoc] at hall
    exact hall

/-- The loop of `DiscardUpTo` keeps the items from the number on, or there are none and what is left
has not been sent before. -/
theorem Drops.keeps (h : Drops now s offset s') (hs : Layout s) (hclean : Clean s) :
    Keeps s.sentList offset.toNat s'.sentList ∨
      ((∀ item ∈ s'.sentList, Unflagged item) ∧ (bytesOf s.sentList).length ≤ offset.toNat) := by
  induction h with
  | @done s offset h =>
    cases h with
    | inl hsize =>
      have hlen := hs.size
      rw [hsize] at hlen
      have hnone : (bytesOf s.sentList).length = 0 := Nat.eq_zero_of_add_eq_zero_right hlen.symm
      rw [hnone, eq_nil_of_length_bytesOf hs.nonempty_sent hnone]
      exact .inr ⟨forall_mem_nil _, Nat.zero_le _⟩
    | inr hoffset =>
      rw [hoffset]
      exact .inl (Keeps.whole (nil_append s.sentList).symm)
  | @send s s₁ s' offset item hempty hsends _ ih =>
    have hsent : s.sentSize = 0#32 := by
      refine BitVec.eq_of_toNat_eq ?_
      rw [hs.sentSize, hempty]
      rfl
    have hnew := hsends.appends hs hclean (by rw [hsent, add_zero])
    have hlist := hnew.sentList
    rw [hempty, nil_append] at hlist
    refine .inr ⟨?_, by rw [hempty]; exact Nat.zero_le _⟩
    rcases ih (hs.sends hsends) (hclean.sends hsends) with hkeeps | ⟨h, -⟩
    · rw [hlist] at hkeeps
      generalize s'.sentList = items at hkeeps
      generalize offset.toNat = n at hkeeps
      cases hkeeps with
      | @whole before after hsplit =>
        intro x hx
        have hmem : x ∈ [item] := hsplit ▸ mem_append_right _ hx
        rw [mem_singleton.mp hmem]
        exact hnew.unflagged
      | @part before after head size hsplit hlt =>
        have hall : ∀ x ∈ before ++ head :: after, Unflagged x := by
          rw [← hsplit]
          exact forall_mem_singleton.mpr hnew.unflagged
        obtain ⟨hhead, hafter⟩ := forall_mem_cons.mp (forall_mem_append.mp hall).2
        exact forall_mem_cons.mpr ⟨hhead, hafter⟩
    · exact h
  | @whole s s' offset item items hlist hle _ ih =>
    obtain ⟨-, hitem, -⟩ := hs.length_head hlist
    have hsum : item.packet.length + (offset - item.size).toNat = offset.toNat := by
      rw [BitVec.toNat_sub_of_le hle, hitem]
      exact Nat.add_sub_cancel' (hitem ▸ BitVec.le_def.mp hle)
    rw [hlist, ← hsum]
    refine (ih ((hs.withoutHead hlist).uncounted _) hclean).imp Keeps.cons fun ⟨h, hlen⟩ => ?_
    rw [bytesOf_cons, length_append]
    exact ⟨h, Nat.add_le_add_left hlen _⟩
  | @part s offset item items hlist _ hlt =>
    obtain ⟨-, hitem, -⟩ := hs.length_head hlist
    have hpart := Keeps.part (hlist.trans (nil_append (item :: items)).symm)
      (hitem ▸ BitVec.lt_def.mp hlt)
    rw [bytesOf_nil, length_nil, Nat.zero_add] at hpart
    exact .inl hpart

/-- The nodes stay distinct, and the rest of the scoreboard is not touched. -/
theorem Drops.nodes (h : Drops now s offset s') (hs : Layout s) (hclean : Clean s)
    (hnodup : (s.sentList.map TcpTxItem.node).Nodup)
    (hfresh : ∀ node ∈ s.sentList.map TcpTxItem.node, node < s.nodes) :
    (s'.sentList.map TcpTxItem.node).Nodup ∧
      (∀ node ∈ s'.sentList.map TcpTxItem.node, node < s'.nodes) ∧
      s'.highestSack = s.highestSack ∧ s'.settings = s.settings := by
  induction h with
  | done => exact ⟨hnodup, hfresh, rfl, rfl⟩
  | @send s s₁ s' offset item hempty hsends _ ih =>
    have hsent : s.sentSize = 0#32 := by
      refine BitVec.eq_of_toNat_eq ?_
      rw [hs.sentSize, hempty]
      rfl
    have hnew := hsends.appends hs hclean (by rw [hsent, add_zero])
    obtain ⟨hnodup', hfresh'⟩ := hnew.nodes hnodup hfresh
    obtain ⟨hn, hf, hsack, hthresh⟩ := ih (hs.sends hsends) (hclean.sends hsends) hnodup' hfresh'
    exact ⟨hn, hf, hsack.trans hnew.highestSack, hthresh.trans hnew.settings⟩
  | @whole s s' offset item items hlist _ _ ih =>
    rw [hlist, map_cons] at hnodup hfresh
    exact ih ((hs.withoutHead hlist).uncounted _) hclean (nodup_cons.mp hnodup).2
      (forall_mem_cons.mp hfresh).2
  | @part s offset item items hlist _ _ =>
    rw [hlist] at hnodup hfresh
    exact ⟨hnodup, hfresh, rfl, rfl⟩

theorem itemsFrom_append (before items : List TcpTxItem) (n : Nat) :
    itemsFrom ((bytesOf before).length + n) (before ++ items) = itemsFrom n items := by
  induction before with
  | nil =>
    rw [bytesOf_nil, length_nil, Nat.zero_add]
    rfl
  | cons item before ih =>
    rw [bytesOf_cons, length_append, cons_append, itemsFrom, if_pos (by omega),
      Nat.add_assoc, Nat.add_sub_cancel_left]
    exact ih

variable {items items' : List TcpTxItem} {n thresh : Nat} {first : SequenceNumber32}

theorem Keeps.head (h : Keeps items n items') (hne : Nonempty items)
    (hhead : ∀ head ∈ (itemsFrom n items).head?, head.sacked = false) :
    ∀ head ∈ items'.head?, head.sacked = false := by
  cases h with
  | @whole before after hlist =>
    rw [hlist] at hne hhead
    have hfrom := itemsFrom_append before items' 0
    rw [Nat.add_zero, itemsFrom_zero (nonempty_append.mp hne).2] at hfrom
    rw [hfrom] at hhead
    exact hhead
  | @part before after item size hlist hlt =>
    rw [hlist, itemsFrom_append, itemsFrom, if_neg (Nat.not_le_of_lt hlt)] at hhead
    intro head hmem
    cases hmem
    exact hhead item rfl

theorem settleHead_unsacked (h : ∀ head ∈ s.sentList.head?, head.sacked = false) :
    s.settleHead = .ok s := by
  unfold settleHead
  split
  · rfl
  · next head rest hlist =>
    rw [h head (by rw [hlist]; rfl), if_neg Bool.false_ne_true]

theorem LostExact.suffix {before after : List TcpTxItem} (h : LostExact thresh (before ++ after)) :
    LostExact thresh after := by
  induction before with
  | nil => exact h
  | cons item before ih => exact ih h.2

theorem LostExact.keeps (hexact : LostExact thresh items) (h : Keeps items n items') :
    LostExact thresh items' := by
  cases h with
  | whole hlist => exact (hlist ▸ hexact).suffix
  | part hlist _ =>
    obtain ⟨hitem, hafter⟩ := (hlist ▸ hexact).suffix
    exact ⟨hitem, hafter⟩

theorem lostExact_unflagged (hthresh : 0 < thresh) (h : ∀ item ∈ items, Unflagged item) :
    LostExact thresh items :=
  lostExact_of_unsacked hthresh (fun item hitem => (h item hitem).1)
    (lostSound_of_not_lost fun item hitem _ => (h item hitem).2.1)

theorem LostExact.concat (hthresh : 0 < thresh) (hexact : LostExact thresh items)
    (hsent : Unflagged sent) : LostExact thresh (items ++ [sent]) := by
  induction items with
  | nil => exact lostExact_unflagged hthresh (forall_mem_singleton.mpr hsent)
  | cons item items ih =>
    refine ⟨fun hsacked => ?_, ih hexact.2⟩
    have hcount : (items ++ [sent]).countP TcpTxItem.sacked = items.countP TcpTxItem.sacked := by
      rw [countP_append, countP_of_unsacked (forall_mem_singleton.mpr hsent.1), Nat.add_zero]
    exact hcount ▸ hexact.1 hsacked

/-- The highest sacked item is forgotten when it is discarded. It is not at the beginning, so it is
less than half the space before the number. -/
theorem forget_discarded (hhead : ∀ head ∈ items.head?, head.sacked = false)
    (hne : Nonempty items) (hle : (bytesOf items).length ≤ n) (hn : n ≤ 2 ^ 31) :
    (if (findHighestSackedFrom first items noSack).2.le (first + ofNat 32 n) then noSack
      else findHighestSackedFrom first items noSack) = noSack := by
  rcases highest_cases items with hnone | ⟨below, highest, above, rfl, hhighest, habove⟩
  · rw [findHighestSackedFrom_unsacked hnone, ite_self]
  · rw [findHighestSackedFrom_highest hhighest habove]
    obtain ⟨hbelow, hrest⟩ := nonempty_append.mp hne
    have hpos : 0 < (bytesOf below).length := by
      cases below with
      | nil =>
        have hfalse := hhead highest rfl
        rw [hhighest] at hfalse
        cases hfalse
      | cons item below =>
        rw [bytesOf_cons, length_append]
        exact Nat.add_pos_left (nonempty_cons.mp hbelow).1 _
    have hsize := (nonempty_cons.mp hrest).1
    rw [bytesOf_append, bytesOf_cons, length_append, length_append] at hle
    refine if_pos ?_
    exact (le_add_ofNat first (by omega) (by omega)).trans (decide_eq_true (by omega))

theorem keep_behind (hlen : (bytesOf items).length < 2 ^ 31) {below above : List TcpTxItem}
    {highest : TcpTxItem} (hlist : items = below ++ highest :: above)
    (hhighest : highest.sacked = true) (habove : Unsacked above) (hn : n < (bytesOf below).length) :
    (if (findHighestSackedFrom first items noSack).2.le (first + ofNat 32 n) then noSack
      else findHighestSackedFrom first items noSack) =
        (some highest.node, first + ofNat 32 (bytesOf below).length) := by
  rw [hlist, findHighestSackedFrom_highest hhighest habove]
  rw [hlist, bytesOf_append, length_append] at hlen
  refine if_neg (Bool.eq_false_iff.mp ?_)
  exact (le_add_ofNat first (by omega) (by omega)).trans (decide_eq_false (by omega))

theorem findHighestSackedFrom_keeps (h : Keeps items n items') (hne : Nonempty items)
    (hlen : (bytesOf items).length < 2 ^ 31) (hhead : ∀ head ∈ items.head?, head.sacked = false)
    (hhead' : ∀ head ∈ items'.head?, head.sacked = false) :
    (if (findHighestSackedFrom first items noSack).2.le (first + ofNat 32 n) then noSack
      else findHighestSackedFrom first items noSack) =
        findHighestSackedFrom (first + ofNat 32 n) items' noSack := by
  -- nothing is sacked behind the items that are discarded
  have hforget {before rest : List TcpTxItem} (hlist : items = before ++ rest)
      (hle : (bytesOf before).length ≤ n) (hn : n ≤ 2 ^ 31) (hrest : Unsacked rest) :
      (if (findHighestSackedFrom first items noSack).2.le (first + ofNat 32 n) then noSack
        else findHighestSackedFrom first items noSack) = noSack := by
    rw [hlist] at hhead hne
    have hbefore : ∀ head ∈ before.head?, head.sacked = false := by
      intro head hmem
      cases before with
      | nil => cases hmem
      | cons => exact hhead head hmem
    rw [hlist, findHighestSackedFrom_append, findHighestSackedFrom_unsacked hrest]
    exact forget_discarded hbefore (nonempty_append.mp hne).1 hle hn
  cases h with
  | @whole before _ hlist =>
    have htotal := hlen
    rw [hlist, bytesOf_append, length_append] at htotal
    rcases highest_cases items' with hnone | ⟨below, highest, above, rfl, hhighest, habove⟩
    · rw [findHighestSackedFrom_unsacked hnone]
      exact hforget hlist (Nat.le_refl _) (by omega) hnone
    · have hpos : 0 < (bytesOf below).length := by
        cases below with
        | nil =>
          have hfalse := hhead' highest rfl
          rw [hhighest] at hfalse
          cases hfalse
        | cons item below =>
          rw [hlist] at hne
          obtain ⟨hbelow, -⟩ := nonempty_append.mp (nonempty_append.mp hne).2
          rw [bytesOf_cons, length_append]
          exact Nat.add_pos_left (nonempty_cons.mp hbelow).1 _
      rw [← append_assoc] at hlist
      rw [keep_behind hlen hlist hhighest habove (by
          rw [bytesOf_append, length_append]
          omega),
        findHighestSackedFrom_highest hhighest habove, bytesOf_append, length_append,
        add_assoc, ← ofNat_add]
  | @part before after item size hlist hlt =>
    have htotal := hlen
    rw [hlist, bytesOf_append, bytesOf_cons, length_append, length_append] at htotal
    have hitem : item.sacked = false := hhead' (item.from size) rfl
    have hsize : (item.from size).packet.length = item.packet.length - size.toNat := length_drop
    rcases highest_cases after with hnone | ⟨below, highest, above, rfl, hhighest, habove⟩
    · rw [findHighestSackedFrom_unsacked
        (unsacked_cons.mpr ⟨show (item.from size).sacked = false from hitem, hnone⟩)]
      exact hforget hlist (Nat.le_add_right _ _) (by omega) (unsacked_cons.mpr ⟨hitem, hnone⟩)
    · have hsplit : items = (before ++ item :: below) ++ highest :: above := by
        rw [hlist, append_assoc, cons_append]
      rw [keep_behind hlen hsplit hhighest habove (by
          rw [bytesOf_append, bytesOf_cons, length_append, length_append]
          omega),
        ← cons_append, findHighestSackedFrom_highest hhighest habove,
        add_assoc, ← ofNat_add, bytesOf_append, bytesOf_cons, bytesOf_cons,
        length_append, length_append, length_append, hsize]
      refine congrArg (fun k => (some highest.node, first + ofNat 32 k)) ?_
      omega

end Discard

/-! ## 7. The invariant -/

theorem add_same (s : TcpTxBuffer) (p : Packet) :
    ∃ appList size, (s.add p).1 = { s with appList := appList, size := size } := by
  unfold TcpTxBuffer.add
  dsimp only
  split
  · split
    · exact ⟨_, _, rfl⟩
    · exact ⟨_, _, rfl⟩
  · exact ⟨_, _, rfl⟩

/-- With the nodes, by which `highestSack` designates its item. -/
structure LossInv (thresh : BitVec 32) (s : TcpTxBuffer) : Prop where
  layout : Layout s
  clean : Clean s
  nodup : (s.sentList.map TcpTxItem.node).Nodup
  fresh : ∀ node ∈ s.sentList.map TcpTxItem.node, node < s.nodes
  threshold : s.dupAckThresh = thresh
  highest : s.highestSack = s.findHighestSacked
  head : ∀ head ∈ s.sentList.head?, head.sacked = false
  exact : 0 < thresh.toNat → LostExact thresh.toNat s.sentList

namespace LossInv

variable {thresh : BitVec 32} {s s' : TcpTxBuffer} {now : Int}

theorem update (hi : LossInv thresh s) {list : List SackBlock}
    (hsafe : LossSafe s (.update list)) {bytes : BitVec 32}
    (h : s.update list = .ok (s', bytes)) : LossInv thresh s' := by
  have hlayout := (update_relabelled h).layout hi.layout
  have hclean := (update_relabelled h).clean hi.clean
  have hblocks {s₁ : TcpTxBuffer} {outside : Bool}
      (hblocks : updateBlocks list (s, 0) = .ok ((s₁, bytes), outside)) :=
    updateBlocks_loss hi.layout rfl rfl hsafe.1 hi.highest hsafe.2 hblocks
  rcases update_ok h with hout | ⟨s₁, hin, hcount, hhead, -⟩
  · obtain ⟨hhighest, hsame⟩ := hblocks hout
    obtain ⟨-, -, hnodes, hthresh⟩ := updateBlocks_marks hout
    have hlist := hsame rfl
    exact ⟨hlayout, hclean, hlist ▸ hi.nodup, by rw [hlist, hnodes]; exact hi.fresh,
      (congrArg Prod.fst hthresh).trans hi.threshold, hhighest, hlist ▸ hi.head, hlist ▸ hi.exact⟩
  · have hhighest := (hblocks hin).1
    obtain ⟨hmarks, hbytes, hnodes, hthresh⟩ := updateBlocks_marks hin
    have hmapped := nodes_of_marks hmarks
    rcases hcount with ⟨rfl, rfl⟩ | ⟨-, hcount⟩
    · have hlt := hlayout.length_sent_lt
      have hlist : s'.sentList = s.sentList := by
        refine eq_of_marks hmarks hi.layout.nonempty_sent ?_
        rw [zero_add, zero_add, sizeOf_eq, sizeOf_eq] at hbytes
        have hnat := congrArg toNat hbytes
        rw [toNat_ofNat, toNat_ofNat,
          Nat.mod_eq_of_lt (lt_of_le_of_lt lengthOf_le hi.layout.length_sent_lt),
          Nat.mod_eq_of_lt (lt_of_le_of_lt lengthOf_le hlt)] at hnat
        exact hnat.symm
      exact ⟨hlayout, hclean, hlist ▸ hi.nodup, by rw [hlist, hnodes]; exact hi.fresh,
        (congrArg Prod.fst hthresh).trans hi.threshold, hhighest, hhead, hlist ▸ hi.exact⟩
    · obtain ⟨hhighest', hexact⟩ := updateLostCount_loss (hmapped ▸ hi.nodup) hhighest hcount
      obtain ⟨hmap, -, hnodes', hthresh'⟩ := updateLostCount_same hcount
      have hnode := (hmap TcpTxItem.node fun _ _ => rfl).trans hmapped
      refine ⟨hlayout, hclean, hnode ▸ hi.nodup, by rw [hnode, hnodes', hnodes]; exact hi.fresh,
        (congrArg Prod.fst (hthresh'.trans hthresh)).trans hi.threshold, hhighest', hhead,
        fun hpos => ?_⟩
      rw [show s₁.dupAckThresh = thresh from (congrArg Prod.fst hthresh).trans hi.threshold] at hexact
      exact hexact hpos ((hi.exact hpos).sound.marks hmarks)

theorem appends (hi : LossInv thresh s) (h : Appends s s' sent) (hlayout : Layout s')
    (hclean : Clean s') : LossInv thresh s' := by
  obtain ⟨hnodup, hfresh⟩ := h.nodes hi.nodup hi.fresh
  refine ⟨hlayout, hclean, hnodup, hfresh, (congrArg Prod.fst h.settings).trans hi.threshold, ?_, ?_, ?_⟩
  · unfold findHighestSacked
    rw [h.sentList, h.firstByteSeq, findHighestSackedFrom_append,
      findHighestSackedFrom_unsacked (forall_mem_singleton.mpr h.unflagged.1)]
    exact h.highestSack.trans hi.highest
  · exact h.head hi.head
  · intro hpos
    rw [h.sentList]
    exact (hi.exact hpos).concat hpos h.unflagged

theorem discardUpTo (hi : LossInv thresh s) {seq : SequenceNumber32}
    (hsafe : LossSafe s (.discardUpTo seq now)) (h : s.discardUpTo seq now = .ok s') :
    LossInv thresh s' := by
  have hlayout := hi.layout.discardUpTo h
  rcases discardUpTo_ok hi.layout h with ⟨-, rfl⟩ | ⟨s₁, s₂, hge, hdrops, hsettle, rfl, -⟩
  · exact hi
  · obtain ⟨hsmall, hsafeHead⟩ := hsafe
    have hne := hi.layout.nonempty_sent
    rw [hi.layout.sentSize] at hsmall
    have hclean := hdrops.clean hi.clean
    obtain ⟨hnodup, hfresh, hsack, hthresh⟩ := hdrops.nodes hi.layout hi.clean hi.nodup hi.fresh
    have hreached := hdrops.acknowledged hi.layout
    have hkeeps := hdrops.keeps hi.layout hi.clean
    have hoffset := toNat_sub_le hge
    have hseq : s.firstByteSeq + ofNat 32 (seq - s.firstByteSeq).toNat = seq := by
      rw [add_ofNat_toNat, add_sub]
    have hhead : ∀ head ∈ s₁.sentList.head?, head.sacked = false := by
      rcases hkeeps with hkeeps | ⟨hnew, -⟩
      · exact hkeeps.head hne hsafeHead
      · intro head hmem
        exact (hnew head (mem_of_mem_head? hmem)).1
    rw [settleHead_unsacked (s := acknowledged s₁ seq) hhead] at hsettle
    cases hsettle
    refine ⟨hlayout, hclean, hnodup, hfresh, (congrArg Prod.fst hthresh).trans hi.threshold, ?_, hhead, fun hpos => ?_⟩
    · show (if s₁.highestSack.2.le (acknowledged s₁ seq).firstByteSeq then noSack
        else s₁.highestSack) =
          findHighestSackedFrom (acknowledged s₁ seq).firstByteSeq s₁.sentList noSack
      rw [hreached, hsack, hi.highest, ← hseq]
      unfold findHighestSacked
      rcases hkeeps with hkeeps | ⟨hnew, hall⟩
      · exact findHighestSackedFrom_keeps hkeeps hne hsmall hi.head hhead
      · rw [findHighestSackedFrom_unsacked fun item hitem => (hnew item hitem).1]
        exact forget_discarded hi.head hne hall hoffset
    · rcases hkeeps with hkeeps | ⟨hnew, -⟩
      · exact (hi.exact hpos).keeps hkeeps
      · exact lostExact_unflagged hpos hnew

theorem step (hi : LossInv thresh s) {operation : Operation}
    (hoperation : LossOperation s operation) (hsafe : LossSafe s operation)
    (hstep : s.step operation = .ok s') : LossInv thresh s' := by
  obtain ⟨⟨s₁, result⟩, h, heq⟩ := except_map_eq_ok.mp hstep
  cases heq
  cases hi.layout.performs h with
  | add p =>
    have hlayout := hi.layout.add p
    have hclean : Clean (s.add p).1 :=
      hi.clean.step hi.layout (show PutBackSafe s (.add p) from trivial) hstep
    obtain ⟨appList, size, heq⟩ := add_same s p
    rw [heq] at hlayout hclean ⊢
    exact ⟨hlayout, hclean, hi.nodup, hi.fresh, hi.threshold, hi.highest, hi.head, hi.exact⟩
  | sendsNothing | looks => exact hi
  | sends hsends =>
    exact hi.appends (hsends.appends hi.layout hi.clean hoperation) (hi.layout.sends hsends)
      (hi.clean.sends hsends)
  | discardUpTo hdiscard => exact hi.discardUpTo hsafe hdiscard
  | update hupdate => exact hi.update hsafe hupdate
  | _ => cases hoperation

end LossInv

/-! ## 8. Runs -/

section Runs

variable (n maxBuffer dupAckThresh segmentSize : BitVec 32) (sackEnabled : Bool)

/-- In every state of a run whose steps are safe the highest sacked item is right, and with a
threshold that is not `0` what is lost is too. -/
theorem loss_of_run {operations : List Operation} {s : TcpTxBuffer}
    (h : FallibleRun step (fun s operation => LossOperation s operation ∧ LossSafe s operation)
      (initial n maxBuffer dupAckThresh segmentSize sackEnabled) operations s) :
    s.highestSack = s.findHighestSacked ∧
      (0 < dupAckThresh.toNat → LostExact dupAckThresh.toNat s.sentList) := by
  have hsteps : ∀ s operation s', LossInv dupAckThresh s →
      LossOperation s operation ∧ LossSafe s operation → step s operation = .ok s' →
      LossInv dupAckThresh s' := by
    rintro s operation s' hi ⟨hoperation, hsafe⟩ hstep
    exact hi.step hoperation hsafe hstep
  have hinit : LossInv dupAckThresh
      (initial n maxBuffer dupAckThresh segmentSize sackEnabled) :=
    ⟨layout_initial _ _ _ _ _, List.forall_mem_nil _, List.nodup_nil, List.forall_mem_nil _, rfl,
      rfl, fun _ hmem => (Option.not_mem_none _ hmem).elim, fun _ => trivial⟩
  have hi := h.invariant (LossInv dupAckThresh) hsteps hinit
  exact ⟨hi.highest, hi.exact⟩

end Runs

/-- Four bytes are sent one by one and the last one is sacked. -/
def sackLast : List Operation :=
  [.add ⟨[0, 1, 2, 3], by decide⟩, .copyFromSequence 1 ⟨10⟩ 0, .copyFromSequence 1 ⟨11⟩ 0,
    .copyFromSequence 1 ⟨12⟩ 0, .copyFromSequence 1 ⟨13⟩ 0, .update [(⟨13⟩, ⟨14⟩)]]

theorem loss_of_run_four : ∃ s, sackLast.foldlM step (initial 10 100 1 1 true) = .ok s ∧
    s.highestSack = s.findHighestSacked ∧ LostExact 1 s.sentList := by
  refine ⟨_, rfl, ?_⟩
  have h := loss_of_run 10 100 1 1 true
    (show FallibleRun step (fun s operation => LossOperation s operation ∧ LossSafe s operation)
      (initial 10 100 1 1 true) sackLast _ from
      .cons ⟨trivial, trivial⟩ rfl (.cons ⟨rfl, trivial⟩ rfl (.cons ⟨rfl, trivial⟩ rfl
        (.cons ⟨rfl, trivial⟩ rfl (.cons ⟨rfl, trivial⟩ rfl
          (.cons ⟨trivial, by decide, by decide⟩ rfl (.nil _)))))))
  exact ⟨h.1, h.2 (by decide)⟩

/-- Then the one directly below is sacked: it counts as the highest. -/
theorem highest_moves_down : ∃ s,
    FallibleRun step LossOperation (initial 10 100 1 1 true)
      (sackLast ++ [Operation.update [(⟨12⟩, ⟨13⟩)]]) s ∧ s.highestSack ≠ s.findHighestSacked :=
  ⟨_, .cons trivial rfl (.cons rfl rfl (.cons rfl rfl (.cons rfl rfl (.cons rfl rfl
    (.cons trivial rfl (.cons trivial rfl (.nil _))))))), by decide⟩

/-- A block behind what is sent follows the one that sacks the last segment: nothing is lost. -/
theorem lost_not_counted : ∃ s, FallibleRun step LossOperation (initial 10 100 1 1 true)
      (sackLast.dropLast ++ [Operation.update [(⟨13⟩, ⟨14⟩), (⟨15⟩, ⟨16⟩)]]) s ∧
      ∃ item ∈ s.sentList, item.startSeq = ⟨10⟩ ∧ item.lost = false :=
  ⟨_, .cons trivial rfl (.cons rfl rfl (.cons rfl rfl (.cons rfl rfl (.cons rfl rfl
    (.cons trivial rfl (.nil _)))))), by decide⟩

end MoeJit.Tcp
