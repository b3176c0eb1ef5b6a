import MoeJit.Internet.TcpTxLayout

/-!
# The stream of the send buffer

`Stream` is what the buffer is for: the bytes that `Add` accepted, without the prefix that
`DiscardUpTo` dropped. It advances by the operations and their results alone.

`stream_of_run`: in every state of a run the two lists are the stream, no step fails in
`GetPacketFromList` or `MergeItems`, and `CopyFromSequence` returns the bytes of the stream that
it is asked for. It needs that less than half the space is buffered, that no flagged segment is
put back by `ResetLastSegmentSent`, which does not clear the flags (`flagged_segment_put_back`),
and that a range that is partly sent does not reach the end of the numbers, which
`CopyFromSequence` compares there as plain values (`partly_sent_across_zero`).
-/

namespace MoeJit.Tcp

open List SequenceNumber32
open BitVec (eq_of_toNat_eq le_def lt_def toNat toNat_add)
open SequenceNumber32 (add_sub add_zero)

open Bytes (Byte)
open TcpTxBuffer

/-! ## 1. Statement -/

/-- The bytes that were accepted, how many of them are discarded, and the number of the first one
that is not. -/
structure Stream where
  accepted : List Byte
  discarded : Nat
  head : SequenceNumber32

/-- What an operation and its result say about the stream. -/
def Stream.advance (stream : Stream) : Operation → Result → Stream
  | .add p, .flag true => { stream with accepted := stream.accepted ++ p.bytes }
  | .discardUpTo seq _, _ =>
    if stream.head.ge seq then stream
    else { stream with
      discarded := min (stream.discarded + (seq - stream.head).toNat) stream.accepted.length
      head := seq }
  | _, _ => stream

def streamStep (s : TcpTxBuffer × Stream) (operation : Operation) :
    Except Failure (TcpTxBuffer × Stream) :=
  (s.1.perform operation).map fun result => (result.1, s.2.advance operation result.2)

/-- The lists hold the stream, the sizes are theirs and the sent items begin where they are. -/
structure Integrity (s : TcpTxBuffer) (stream : Stream) : Prop where
  contents : bytesOf (s.sentList ++ s.appList) = stream.accepted.drop stream.discarded
  size : s.size.toNat = (bytesOf (s.sentList ++ s.appList)).length
  sentSize : s.sentSize.toNat = (bytesOf s.sentList).length
  head : s.firstByteSeq = stream.head
  placed : Placed s.firstByteSeq s.sentList

/-- A sent segment that is not sacked begins at the number, or what is not sent does. -/
def Begins (s : TcpTxBuffer) (seq : SequenceNumber32) : Prop :=
  (∃ item ∈ s.sentList, item.startSeq = seq ∧ item.sacked = false) ∨
    (s.appList ≠ [] ∧ seq = s.firstByteSeq + s.sentSize)

/-- The operations on the stream, and where they may copy from. -/
def StreamOperation (s : TcpTxBuffer) : Operation → Prop
  | .add _ => True
  | .copyFromSequence numBytes seq _ => 0 < numBytes ∧ Begins s seq
  | .discardUpTo _ _ => True
  | .update _ => True
  | .setSentListLost _ => True
  | .resetSentList => True
  | .resetLastSegmentSent => True
  | _ => False

/-- Some of the bytes from the number on are sent and some are not. -/
def PartlySent (s : TcpTxBuffer) (seq : SequenceNumber32) (bytes : BitVec 32) : Prop :=
  (seq - s.firstByteSeq).toNat < s.sentSize.toNat ∧
    s.sentSize.toNat < (seq - s.firstByteSeq).toNat + bytes.toNat

/-- Less than half the space is buffered, a partly sent range ends before the number `2 ^ 32`, and
the last segment has no flag when it is put back. -/
def StreamSafe (s : TcpTxBuffer) : Operation → Prop
  | .copyFromSequence numBytes seq _ =>
    let bytes := minimum numBytes (s.sizeFromSequence seq)
    s.size.toNat < 2 ^ 31 ∧ (PartlySent s seq bytes → seq.value.toNat + bytes.toNat < 2 ^ 32)
  | .discardUpTo _ _ => s.size.toNat < 2 ^ 31
  | .resetLastSegmentSent => PutBackSafe s .resetLastSegmentSent
  | _ => True

/-- The lists are not found to be broken. -/
def Harmless {α : Type} (x : Except Failure α) : Prop :=
  x ≠ .error .getPacketFromList ∧ x ≠ .error .mergeItems

/-- `CopyFromSequence` returns an item with the bytes of the stream from the number on. -/
def Serves (s : TcpTxBuffer) (stream : Stream) : Operation → Prop
  | .copyFromSequence numBytes seq now => ∃ s' item,
    s.perform (.copyFromSequence numBytes seq now) = .ok (s', .item (some item)) ∧
      item.startSeq = seq ∧ 0 < item.packet.length ∧ item.packet.length ≤ numBytes.toNat ∧
      item.packet = (stream.accepted.drop (stream.discarded + (seq - stream.head).toNat)).take
        item.packet.length
  | _ => True

/-! ## 2. Finding a segment -/

section Find

variable {check : TcpTxItem → Bool} {start : SequenceNumber32} {numBytes retrans : BitVec 32}
  {fuel nodes : Nat} {before after run rest : List TcpTxItem} {current : TcpTxItem}

theorem locate_begins (hcheck : ∀ item ∈ before ++ [current], check item = true)
    (hne : Nonempty (before ++ [current]))
    (hlen : (bytesOf before).length + current.packet.length < 2 ^ 31) :
    locate check (start + BitVec.ofNat 32 (bytesOf before).length) start
      (before ++ current :: after) =
        .ok (before, start + BitVec.ofNat 32 (bytesOf before).length, current, after) := by
  induction before generalizing start with
  | nil =>
    obtain ⟨hcur, -⟩ := nonempty_cons.mp hne
    have hhalf : current.packet.length < 0 + 2 ^ 31 := by
      rw [Nat.zero_add]
      exact Nat.lt_of_le_of_lt (Nat.le_add_left _ _) hlen
    have hlt : (start + BitVec.ofNat 32 0).lt (start + current.size) = true :=
      (lt_add_ofNat start (Nat.add_pos_right _ (by decide)) hhalf).trans (decide_eq_true hcur)
    show locate check (start + 0#32) start (current :: after) = .ok ([], start + 0#32, current, after)
    unfold locate
    rw [hcheck current (mem_singleton_self _), if_neg Bool.noConfusion, if_pos hlt, add_zero]
  | cons item before ih =>
    obtain ⟨hitem, hrest⟩ := forall_mem_cons.mp hcheck
    obtain ⟨hpos, hne⟩ := nonempty_cons.mp hne
    rw [bytesOf_cons, length_append] at hlen ⊢
    have hlt : (start + BitVec.ofNat 32 (item.packet.length + (bytesOf before).length)).lt
        (start + item.size) = false :=
      (lt_add_ofNat start (by omega) (by omega)).trans
        (decide_eq_false (Nat.not_lt.mpr (Nat.le_add_right _ _)))
    have hwalk := @ih (start + item.size) hrest hne (by omega)
    rw [add_size_add] at hwalk
    rw [cons_append]
    unfold locate
    rw [hitem, if_neg Bool.noConfusion, hlt, if_neg Bool.false_ne_true, hwalk]
    rfl

theorem mergeItems_eq_ok (retrans : BitVec 32) {t1 t2 : TcpTxItem} (hsacked : t1.sacked = t2.sacked)
    (hlost : t1.lost = t2.lost) :
    ∃ merged retrans', mergeItems t1 t2 retrans = .ok (merged, retrans') := by
  unfold mergeItems
  rw [if_neg (not_not.mpr hsacked), if_neg (not_not.mpr hlost)]
  dsimp only
  split
  · split
    · exact ⟨_, _, rfl⟩
    · exact ⟨_, _, rfl⟩
  · exact ⟨_, _, rfl⟩

/-- A round of the loop when the segment begins at the number. -/
theorem getPacketFromList_begins (hcheck : ∀ item ∈ before ++ [current], check item = true)
    (hnonempty : Nonempty (before ++ [current]))
    (hlen : (bytesOf before).length + current.packet.length < 2 ^ 31)
    (hnum : numBytes.toNat < 2 ^ 31) :
    getPacketFromList check start numBytes (start + BitVec.ofNat 32 (bytesOf before).length)
      (fuel + 1) (before ++ current :: after) retrans nodes =
      if numBytes.toNat ≤ current.packet.length then
        if numBytes.toNat = current.packet.length then
          .ok ⟨before, current, after, retrans, nodes⟩
        else
          .ok ⟨before, (splitItems current nodes numBytes).1,
            (splitItems current nodes numBytes).2 :: after, retrans, nodes + 1⟩
      else
        match after with
        | [] => .ok ⟨before, current, [], retrans, nodes⟩
        | next :: after =>
          mergeItems current next retrans >>= fun merged =>
            getPacketFromList check start numBytes
              (start + BitVec.ofNat 32 (bytesOf before).length) fuel
              (before ++ merged.1 :: after) merged.2 nodes := by
  have hsize : current.size.toNat = current.packet.length := toNat_size (by omega)
  have hends (x : SequenceNumber32) :
      (x + numBytes).le (x + current.size) = decide (numBytes.toNat ≤ current.packet.length) := by
    have h := le_add_ofNat x (x := numBytes.toNat) (y := current.packet.length)
      (by omega) (by omega)
    rw [add_ofNat_toNat] at h
    exact h
  conv => lhs; unfold getPacketFromList
  rw [locate_begins hcheck hnonempty hlen]
  show (if _ then _ else _) = _
  rw [if_pos rfl]
  cases Nat.decLe numBytes.toNat current.packet.length with
  | isTrue hle =>
    rw [if_pos ((hends _).trans (decide_eq_true hle)), if_pos hle]
    cases Nat.decEq numBytes.toNat current.packet.length with
    | isTrue heq =>
      rw [if_pos heq, if_pos (eq_of_toNat_eq (heq.trans hsize.symm))]
      rfl
    | isFalse hne =>
      have hne' : numBytes ≠ current.size := fun h => hne ((congrArg toNat h).trans hsize)
      have hlt : numBytes < current.size := lt_def.mpr (hsize ▸ Nat.lt_of_le_of_ne hle hne)
      rw [if_neg hne, if_neg hne', if_pos hlt]
      rfl
  | isFalse hnot =>
    have hpast := (hends (start + BitVec.ofNat 32 (bytesOf before).length)).trans
      (decide_eq_false hnot)
    rw [if_neg (Bool.eq_false_iff.mp hpast), if_neg hnot]
    rfl

/-- The segments behind the one that begins at the number are merged with it as far as they are
needed; those that are have the same flags. -/
theorem getPacketFromList_run (start : SequenceNumber32) (retrans : BitVec 32) (nodes : Nat)
    (rest : List TcpTxItem)
    (hsame : ∀ t1 t2 : TcpTxItem, t1.startSeq = t2.startSeq → check t1 = check t2)
    (hcheck : ∀ item ∈ before ++ [current], check item = true)
    (hne : Nonempty (before ++ [current]))
    (hlen : (bytesOf before).length + current.packet.length + (bytesOf run).length < 2 ^ 31)
    (hnum : numBytes.toNat < 2 ^ 31) (hfuel : run.length < fuel)
    (hrun : ∀ item ∈ run, item.sacked = current.sacked ∧ item.lost = current.lost)
    (hreach : numBytes.toNat ≤ current.packet.length + (bytesOf run).length ∨ rest = []) :
    ∃ found, getPacketFromList check start numBytes
        (start + BitVec.ofNat 32 (bytesOf before).length) fuel
        (before ++ current :: (run ++ rest)) retrans nodes = .ok found ∧
      found.item.sacked = current.sacked ∧ found.item.startSeq = current.startSeq := by
  induction run generalizing current retrans fuel with
  | nil =>
    obtain ⟨fuel, rfl⟩ := Nat.exists_eq_add_of_lt hfuel
    rw [getPacketFromList_begins hcheck hne (by omega) hnum]
    split
    · split
      · exact ⟨_, rfl, rfl, rfl⟩
      · exact ⟨_, rfl, rfl, rfl⟩
    · next hnot =>
      cases hreach with
      | inl hle => exact absurd hle hnot
      | inr hnil =>
        subst hnil
        exact ⟨_, rfl, rfl, rfl⟩
  | cons next run ih =>
    obtain ⟨fuel, rfl⟩ := Nat.exists_eq_add_of_lt (Nat.lt_of_le_of_lt (Nat.zero_le _) hfuel)
    rw [bytesOf_cons, length_append] at hlen hreach
    obtain ⟨hnext, hrun⟩ := forall_mem_cons.mp hrun
    rw [getPacketFromList_begins hcheck hne (by omega) hnum]
    split
    · split
      · exact ⟨_, rfl, rfl, rfl⟩
      · exact ⟨_, rfl, rfl, rfl⟩
    · obtain ⟨merged, retrans', hmerge⟩ := mergeItems_eq_ok retrans hnext.1.symm hnext.2.symm
      obtain ⟨hpkt, hstart, -, ⟨-, hsacked⟩, ⟨-, hlost⟩, -⟩ := mergeItems_ok hmerge
      have hmerged := congrArg List.length hpkt
      rw [length_append] at hmerged
      obtain ⟨hbefore, hcur⟩ := forall_mem_append.mp hcheck
      obtain ⟨hbeforeNonempty, hpos⟩ := nonempty_append.mp hne
      have hmergedCheck : ∀ item ∈ before ++ [merged], check item = true :=
        forall_mem_append.mpr ⟨hbefore, forall_mem_singleton.mpr
          ((hsame _ _ hstart).trans (hcur _ (mem_singleton_self _)))⟩
      have hmergedNonempty : Nonempty (before ++ [merged]) :=
        nonempty_append.mpr ⟨hbeforeNonempty, nonempty_cons.mpr
          ⟨hmerged ▸ Nat.add_pos_left (hpos _ (mem_singleton_self _)) _, forall_mem_nil _⟩⟩
      rw [length_cons] at hfuel
      obtain ⟨found, hfound, hfoundSacked, hfoundStart⟩ :=
        @ih (0 + fuel) merged retrans' hmergedCheck hmergedNonempty (by omega) (by omega)
          (fun item hitem =>
            ⟨(hrun item hitem).1.trans hsacked.symm, (hrun item hitem).2.trans hlost.symm⟩)
          (hreach.imp_left fun h => by omega)
      refine ⟨found, ?_, hfoundSacked.trans hsacked, hfoundStart.trans hstart⟩
      show (mergeItems current next retrans >>= _) = _
      rw [hmerge]
      exact hfound

end Find

/-! ## 3. Copying -/

variable {offset : Nat} {operation : Operation} {stream : Stream}

section Copy

variable {s : TcpTxBuffer} {numBytes : BitVec 32} {seq : SequenceNumber32} {now : Int}
  {before after : List TcpTxItem} {item : TcpTxItem}

theorem startSeq_ne_of_placed {start : SequenceNumber32} (hplaced : Placed start before)
    (hnonempty : Nonempty before) (hlen : (bytesOf before).length < 2 ^ 32) :
    ∀ item ∈ before, item.startSeq ≠ start + BitVec.ofNat 32 (bytesOf before).length := by
  induction before generalizing start with
  | nil => exact forall_mem_nil _
  | cons head rest ih =>
    obtain ⟨hpos, hnonempty⟩ := nonempty_cons.mp hnonempty
    obtain ⟨hstart, hrest⟩ := hplaced
    rw [bytesOf_cons, length_append] at hlen ⊢
    refine forall_mem_cons.mpr ⟨fun heq => ?_, ?_⟩
    · rw [hstart] at heq
      have hzero := (add_ofNat_inj start (x := 0) (by omega) (by omega)).mp
        ((add_zero start).trans heq)
      omega
    · have hne := ih hrest hnonempty (by omega)
      rw [add_size_add] at hne
      exact hne

theorem transmittedBytes_append (numBytes : BitVec 32) (after : List TcpTxItem) (h : ∀ item ∈ before, item.startSeq ≠ seq) :
    transmittedBytes numBytes seq (before ++ after) = transmittedBytes numBytes seq after := by
  induction before with
  | nil => rfl
  | cons head rest ih =>
    obtain ⟨hhead, hrest⟩ := forall_mem_cons.mp h
    rw [cons_append]
    conv => lhs; unfold transmittedBytes
    rw [if_neg hhead]
    exact ih hrest

/-- The bytes are in the segment, or in it and the next one, which has the same flags. -/
theorem transmittedBytes_reach (numBytes : BitVec 32) (hstart : item.startSeq = seq) (hsacked : item.sacked = false)
    (hlen : (bytesOf (item :: after)).length < 2 ^ 32) :
    ∃ run rest, after = run ++ rest ∧ run.length ≤ 1 ∧
      (∀ next ∈ run, next.sacked = item.sacked ∧ next.lost = item.lost) ∧
      (transmittedBytes numBytes seq (item :: after)).toNat ≤
        item.packet.length + (bytesOf run).length := by
  rw [bytesOf_cons, length_append] at hlen
  have hsize : item.size.toNat = item.packet.length := toNat_size (by omega)
  unfold transmittedBytes
  rw [if_pos hstart]
  cases after with
  | nil =>
    exact ⟨[], [], rfl, Nat.zero_le _, forall_mem_nil _, hsize ▸ minimum_le_right _ _⟩
  | cons next after =>
    rw [bytesOf_cons, length_append] at hlen
    dsimp only
    split
    · next hflags =>
      obtain ⟨hnext, hlost⟩ := Bool.and_eq_true_iff.mp hflags
      refine ⟨[next], after, rfl, Nat.le_refl _, forall_mem_singleton.mpr
        ⟨(of_decide_eq_true hnext).trans hsacked.symm, (of_decide_eq_true hlost).symm⟩, ?_⟩
      refine Nat.le_trans (minimum_le_right _ _) ?_
      rw [toNat_add, hsize, toNat_size (by omega), bytesOf_cons, length_append, bytesOf_nil]
      exact Nat.mod_le _ _
    · exact ⟨[], next :: after, rfl, Nat.zero_le _, forall_mem_nil _, hsize ▸ minimum_le_right _ _⟩

theorem toNat_minimum (a b : BitVec 32) : (minimum a b).toNat = min a.toNat b.toNat := by
  unfold minimum
  split
  · next h => exact (Nat.min_eq_right (Nat.le_of_lt (lt_def.mp h))).symm
  · next h => exact (Nat.min_eq_left (Nat.le_of_not_lt (lt_def.not.mp h))).symm

theorem placed_offset {start : SequenceNumber32} {items : List TcpTxItem}
    (hplaced : Placed start items) (hmem : item ∈ items) :
    ∃ k, k ≤ (bytesOf items).length ∧ item.startSeq = start + BitVec.ofNat 32 k := by
  obtain ⟨before, after, rfl⟩ := append_of_mem hmem
  obtain ⟨-, hstart, -⟩ := placed_append.mp hplaced
  refine ⟨_, ?_, hstart⟩
  rw [bytesOf_append, length_append]
  exact Nat.le_add_right _ _

theorem toNat_sizeFromSequence (hsmall : s.size.toNat < 2 ^ 31) (hle : offset ≤ s.size.toNat) :
    (s.sizeFromSequence (s.firstByteSeq + BitVec.ofNat 32 offset)).toNat =
      s.size.toNat - offset := by
  have htail : s.tailSequence = s.firstByteSeq + BitVec.ofNat 32 s.size.toNat :=
    (add_ofNat_toNat _ _).symm
  have hge := ge_add_ofNat s.firstByteSeq (x := s.size.toNat) (y := offset) (by omega) (by omega)
  unfold sizeFromSequence
  rw [htail, hge, if_pos (decide_eq_true hle), ofNat_sub_ofNat]
  omega

theorem returnItem_eq_ok (now : Int) {found : Found} (h : found.item.startSeq.ge s.firstByteSeq = true) :
    ∃ s' sent, s.returnItem found now = .ok (s', some sent) := by
  unfold returnItem
  rw [if_pos h]
  exact ⟨_, _, rfl⟩

section

variable (hs : Layout s) (hsmall : s.size.toNat < 2 ^ 31)
  (hlist : s.sentList = before ++ item :: after)
include hs hsmall hlist

theorem transmitted_guard (hle : numBytes.toNat ≤ s.sentSize.toNat) :
    ((s.firstByteSeq + BitVec.ofNat 32 (bytesOf before).length).ge s.firstByteSeq &&
      decide (numBytes ≤ s.sentSize) && !s.sentList.isEmpty) = true := by
  have hsize := hs.size
  rw [hlist, bytesOf_append, length_append] at hsize
  rw [ge_self s.firstByteSeq (by omega), decide_eq_true (le_def.mpr hle), hlist]
  cases before with
  | nil => rfl
  | cons => rfl

theorem transmitted_check : ∀ x ∈ before ++ [item], x.startSeq.ge s.firstByteSeq = true := by
  intro x hx
  have hsize := hs.size
  have hmem : x ∈ s.sentList := by
    rw [hlist, append_cons]
    exact mem_append_left _ hx
  obtain ⟨k, hk, hx⟩ := placed_offset hs.placed hmem
  rw [hx]
  exact ge_self _ (by omega)

theorem getTransmittedSegment_begins (hsacked : item.sacked = false) (numBytes : BitVec 32)
    (hle : numBytes.toNat ≤ s.sentSize.toNat) : ∃ s' found,
      s.getTransmittedSegment numBytes (s.firstByteSeq + BitVec.ofNat 32 (bytesOf before).length) =
        .ok (s', found) ∧ found.item.sacked = false ∧
      found.item.startSeq = s.firstByteSeq + BitVec.ofNat 32 (bytesOf before).length ∧
      s'.firstByteSeq = s.firstByteSeq := by
  have hguard := transmitted_guard hs hsmall hlist hle
  have hcheck := transmitted_check hs hsmall hlist
  have hsize := hs.size
  have hsent := hs.sentSize
  have hplaced := hs.placed
  have hne := hs.nonempty_sent
  rw [hlist] at hplaced hne
  rw [hlist, bytesOf_append, bytesOf_cons, length_append, length_append] at hsize hsent
  obtain ⟨hbefore, hstart, -⟩ := placed_append.mp hplaced
  obtain ⟨hbeforeNonempty, hafter⟩ := nonempty_append.mp hne
  have hlen : (bytesOf (item :: after)).length < 2 ^ 32 := by
    rw [bytesOf_cons, length_append]
    omega
  obtain ⟨run, rest, hrunrest, hshort, hrun, hreach⟩ :=
    transmittedBytes_reach numBytes hstart hsacked hlen
  have hrunLength : (bytesOf run).length ≤ (bytesOf after).length := by
    rw [hrunrest, bytesOf_append, length_append]
    exact Nat.le_add_right _ _
  have hfind := getPacketFromList_run s.firstByteSeq s.retrans s.nodes rest
    (fun t1 t2 h => congrArg (fun seq => ge seq s.firstByteSeq) h) hcheck
    (nonempty_append.mpr ⟨hbeforeNonempty, nonempty_cons.mpr
      ⟨(nonempty_cons.mp hafter).1, forall_mem_nil _⟩⟩)
    (by omega) (Nat.lt_of_le_of_lt (transmittedBytes_le _ _ _) (by omega))
    (Nat.lt_of_le_of_lt hshort (Nat.lt_add_left s.sentList.length Nat.one_lt_two)) hrun (.inl hreach)
  obtain ⟨found, hfound, hfoundSacked, hfoundStart⟩ := hfind
  rw [← hrunrest, ← hlist] at hfound
  have hbytes := transmittedBytes_append numBytes (item :: after)
    (startSeq_ne_of_placed hbefore hbeforeNonempty (by omega))
  rw [← hlist] at hbytes
  unfold getTransmittedSegment
  rw [if_pos hguard, hbytes, hfound]
  exact ⟨_, _, rfl, hfoundSacked.trans hsacked, hfoundStart.trans hstart, rfl⟩

end

theorem getNewSegment_begins (hs : Layout s) (hclean : Clean s) (hsmall : s.size.toNat < 2 ^ 31)
    (happ : s.appList ≠ []) (hpos : 0 < numBytes) (hnum : numBytes.toNat < 2 ^ 31) :
    ∃ s' found, s.getNewSegment numBytes = .ok (s', found) ∧ found.item.retrans = false ∧
      found.item.startSeq = s.firstByteSeq + s.sentSize ∧ s'.firstByteSeq = s.firstByteSeq := by
  have hsize := hs.size
  obtain ⟨current, run, happ⟩ := exists_cons_of_ne_nil happ
  have hne := hs.nonempty_app
  rw [happ] at hne
  rw [happ, bytesOf_cons, length_append] at hsize
  have hflags : ∀ item ∈ current :: run, Unflagged item := happ ▸ hclean
  obtain ⟨hcur, hrun⟩ := forall_mem_cons.mp hflags
  have hfind := getPacketFromList_run (s.firstByteSeq + s.sentSize) s.retrans s.nodes []
    (fun _ _ _ => rfl)
    (show ∀ item ∈ [] ++ [current], (fun _ : TcpTxItem => true) item = true from fun _ _ => rfl)
    (nonempty_cons.mpr ⟨(nonempty_cons.mp hne).1, forall_mem_nil _⟩)
    (by rw [bytesOf_nil, length_nil]; omega) hnum
    (show run.length < s.appList.length + 2 by rw [happ, length_cons]; omega)
    (fun item hitem => ⟨(hrun item hitem).1.trans hcur.1.symm,
      (hrun item hitem).2.1.trans hcur.2.1.symm⟩) (.inr rfl)
  obtain ⟨found, hfound, -⟩ := hfind
  rw [append_nil, nil_append, ← happ] at hfound
  have hzero : s.firstByteSeq + s.sentSize + BitVec.ofNat 32 (bytesOf []).length =
      s.firstByteSeq + s.sentSize := add_zero _
  rw [hzero] at hfound
  have hretrans : found.item.retrans = false := by
    obtain ⟨hedit, -⟩ := getPacketFromList_ok hpos hs.length_app_lt hs.nonempty_app hfound
    exact (hedit.unflagged hclean found.item (mem_append_right _ mem_cons_self)).2.2
  unfold getNewSegment
  dsimp only
  rw [hfound]
  exact ⟨_, _, rfl, hretrans, rfl, rfl⟩

theorem toNat_bytes (numBytes : BitVec 32) (hsmall : s.size.toNat < 2 ^ 31)
    (hle : offset ≤ s.size.toNat) :
    (minimum numBytes (s.sizeFromSequence (s.firstByteSeq + BitVec.ofNat 32 offset))).toNat =
      min numBytes.toNat (s.size.toNat - offset) := by
  rw [toNat_minimum, toNat_sizeFromSequence hsmall hle]

section

variable (hs : Layout s)
include hs

theorem sent_ge (hsmall : s.size.toNat < 2 ^ 31) (bytes : BitVec 32)
    (hle : offset + bytes.toNat ≤ s.size.toNat) : (s.firstByteSeq + s.sentSize).ge
      (s.firstByteSeq + BitVec.ofNat 32 offset + bytes) =
        decide (offset + bytes.toNat ≤ s.sentSize.toNat) := by
  have hsize := hs.size
  rw [← hs.sentSize] at hsize
  rw [← add_ofNat_toNat s.firstByteSeq s.sentSize, add_ofNat_add]
  exact ge_add_ofNat _ (by omega) (by omega)

theorem copyFromSequenceIn_again (hsmall : s.size.toNat < 2 ^ 31)
    (hlist : s.sentList = before ++ item :: after) (hsacked : item.sacked = false)
    (hpos : 0 < numBytes.toNat) (now : Int) (calls : Nat)
    (hsent : (bytesOf before).length + min numBytes.toNat (s.size.toNat - (bytesOf before).length) ≤
      s.sentSize.toNat) : ∃ s' sent,
    s.copyFromSequenceIn (s.firstByteSeq + BitVec.ofNat 32 (bytesOf before).length) now (calls + 1)
      numBytes = .ok (s', some sent) := by
  have hsize := hs.size
  rw [hlist, bytesOf_append, bytesOf_cons, length_append, length_append] at hsize
  obtain ⟨hitem, -⟩ := nonempty_cons.mp (nonempty_append.mp (hlist ▸ hs.nonempty_sent)).2
  have hbytes := toNat_bytes numBytes hsmall (show (bytesOf before).length ≤ s.size.toNat by omega)
  generalize hdef : minimum numBytes (s.sizeFromSequence
    (s.firstByteSeq + BitVec.ofNat 32 (bytesOf before).length)) = bytes at hbytes
  have hge := sent_ge hs hsmall bytes
    (show (bytesOf before).length + bytes.toNat ≤ s.size.toNat by omega)
  rw [hbytes, decide_eq_true hsent] at hge
  obtain ⟨s', found, hsegment, hfoundSacked, hstart, hfirst⟩ :=
    getTransmittedSegment_begins hs hsmall hlist hsacked bytes (by omega)
  have hfoundGe : found.item.startSeq.ge s'.firstByteSeq = true := by
    rw [hstart, hfirst]
    exact ge_self _ (by omega)
  obtain ⟨s'', sent, hreturn⟩ := returnItem_eq_ok now hfoundGe
  have hne : bytes ≠ 0 := by
    rintro rfl
    have hzero : 0 = min numBytes.toNat (s.size.toNat - (bytesOf before).length) := hbytes
    omega
  refine ⟨s'', sent, ?_⟩
  unfold copyFromSequenceIn
  rw [self_gt _ (by omega), if_neg Bool.false_ne_true]
  dsimp only
  rw [hdef, if_neg hne, if_pos hge, hsegment]
  show (if found.item.sacked = true then _ else _) = _
  rw [hfoundSacked, if_neg Bool.false_ne_true]
  exact hreturn

theorem copyFromSequenceIn_new (hclean : Clean s) (hsmall : s.size.toNat < 2 ^ 31)
    (happ : s.appList ≠ []) (hpos : 0 < numBytes.toNat) (now : Int) (calls : Nat) : ∃ s' sent,
    s.copyFromSequenceIn (s.firstByteSeq + s.sentSize) now (calls + 1) numBytes =
      .ok (s', some sent) := by
  have hsize := hs.size
  have hunsent : 0 < (bytesOf s.appList).length := by
    refine pos_of_ne_zero fun h0 => happ (eq_nil_of_length_bytesOf hs.nonempty_app h0)
  rw [← hs.sentSize] at hsize
  have hseq := add_ofNat_toNat s.firstByteSeq s.sentSize
  have hbytes := toNat_bytes numBytes hsmall (show s.sentSize.toNat ≤ s.size.toNat by omega)
  rw [hseq] at hbytes
  generalize hdef : minimum numBytes (s.sizeFromSequence (s.firstByteSeq + s.sentSize)) = bytes
    at hbytes
  have hge := sent_ge hs hsmall bytes (show s.sentSize.toNat + bytes.toNat ≤ s.size.toNat by omega)
  rw [hseq, decide_eq_false (by omega)] at hge
  have hle := le_add_ofNat s.firstByteSeq (x := s.sentSize.toNat)
    (y := s.sentSize.toNat) (by omega) (by omega)
  rw [hseq, decide_eq_true (le_refl _)] at hle
  have hgt := self_gt s.firstByteSeq (x := s.sentSize.toNat) (by omega)
  rw [hseq] at hgt
  have hne : bytes ≠ 0 := by
    rintro rfl
    have hzero : 0 = min numBytes.toNat (s.size.toNat - s.sentSize.toNat) := hbytes
    omega
  obtain ⟨s', found, hsegment, hretrans, hstart, hfirst⟩ :=
    getNewSegment_begins hs hclean hsmall happ (lt_def.mpr (toNat_pos_of_ne_zero hne)) (by omega)
  have hfoundGe : found.item.startSeq.ge s'.firstByteSeq = true := by
    rw [hstart, hfirst, ← hseq]
    exact ge_self _ (by omega)
  obtain ⟨s'', sent, hreturn⟩ := returnItem_eq_ok now hfoundGe
  refine ⟨s'', sent, ?_⟩
  unfold copyFromSequenceIn
  rw [hgt, if_neg Bool.false_ne_true]
  dsimp only
  rw [hdef, if_neg hne, hge, if_neg Bool.false_ne_true, if_pos hle, if_neg (not_not.mpr rfl),
    hsegment]
  show (if found.item.retrans = true then _ else _) = _
  rw [hretrans, if_neg Bool.false_ne_true]
  exact hreturn

/-- A range that is partly sent is cut where the sent part ends. -/
theorem copyFromSequence_partly (hsmall : s.size.toNat < 2 ^ 31)
    (hlist : s.sentList = before ++ item :: after) (hsacked : item.sacked = false)
    {bytes : BitVec 32} (hdef : minimum numBytes (s.sizeFromSequence
      (s.firstByteSeq + BitVec.ofNat 32 (bytesOf before).length)) = bytes)
    (hpartly : s.sentSize.toNat < (bytesOf before).length + bytes.toNat)
    (hzero : (s.firstByteSeq + BitVec.ofNat 32 (bytesOf before).length).value.toNat +
      bytes.toNat < 2 ^ 32) : ∃ s' sent,
    s.copyFromSequence numBytes (s.firstByteSeq + BitVec.ofNat 32 (bytesOf before).length) now =
      .ok (s', some sent) := by
  have hsize := hs.size
  have hsentSize := hs.sentSize
  rw [hlist, bytesOf_append, bytesOf_cons, length_append, length_append] at hsize hsentSize
  obtain ⟨hitem, -⟩ := nonempty_cons.mp (nonempty_append.mp (hlist ▸ hs.nonempty_sent)).2
  have hbytes := toNat_bytes numBytes hsmall (show (bytesOf before).length ≤ s.size.toNat by omega)
  rw [hdef] at hbytes
  have hge := sent_ge hs hsmall bytes
    (show (bytesOf before).length + bytes.toNat ≤ s.size.toNat by omega)
  rw [decide_eq_false (not_le.mpr hpartly)] at hge
  have hle := le_add_ofNat s.firstByteSeq (x := s.sentSize.toNat)
    (y := (bytesOf before).length) (by omega) (by omega)
  rw [add_ofNat_toNat, decide_eq_false (by omega)] at hle
  have hne : bytes ≠ 0 := by
    rintro rfl
    have hlt : s.sentSize.toNat < (bytesOf before).length + 0 := hpartly
    omega
  have hoffset : (BitVec.ofNat 32 (bytesOf before).length).toNat = (bytesOf before).length :=
    Nat.mod_eq_of_lt (by omega)
  -- the distance to the end of the sent part
  obtain ⟨rest, hrest⟩ : ∃ rest, rest = s.sentSize - BitVec.ofNat 32 (bytesOf before).length :=
    ⟨_, rfl⟩
  have hrestLength : rest.toNat = s.sentSize.toNat - (bytesOf before).length := by
    rw [hrest, BitVec.toNat_sub_of_le (le_def.mpr (by omega)), hoffset]
  have hend : s.firstByteSeq.value + s.sentSize =
      (s.firstByteSeq + BitVec.ofNat 32 (bytesOf before).length).value + rest := by
    rw [value_add, hrest]
    ring
  generalize hseq : s.firstByteSeq + BitVec.ofNat 32 (bytesOf before).length = seq
    at hdef hzero hge hle hend
  have hlow : seq.value < s.firstByteSeq.value + s.sentSize := by
    rw [hend, lt_def, toNat_add, Nat.mod_eq_of_lt (by omega)]
    omega
  have hhigh : s.firstByteSeq.value + s.sentSize < seq.value + bytes := by
    rw [hend, lt_def, toNat_add, toNat_add, Nat.mod_eq_of_lt (by omega),
      Nat.mod_eq_of_lt (by omega)]
    omega
  have hrec : s.firstByteSeq.value + s.sentSize - seq.value = rest := by
    rw [hend]
    ring
  obtain ⟨s', sent, hcopy⟩ := copyFromSequenceIn_again hs hsmall hlist hsacked
    (show 0 < rest.toNat by omega) now 0 (by omega)
  rw [hseq] at hcopy
  refine ⟨s', sent, ?_⟩
  unfold copyFromSequence copyFromSequenceIn
  rw [← hseq, self_gt _ (by omega), if_neg Bool.false_ne_true, hseq]
  dsimp only
  rw [hdef, if_neg hne, hge, if_neg Bool.false_ne_true, hle, if_neg Bool.false_ne_true,
    if_pos ⟨hlow, hhigh⟩, hrec]
  exact hcopy

theorem copyFromSequence_begins (hclean : Clean s) (hpos : 0 < numBytes)
    (hbegins : Begins s seq) (hsafe : StreamSafe s (.copyFromSequence numBytes seq now)) :
    ∃ s' sent, s.copyFromSequence numBytes seq now = .ok (s', some sent) := by
  obtain ⟨hsmall, hpartly⟩ := hsafe
  rcases hbegins with ⟨item, hmem, rfl, hsacked⟩ | ⟨happ, rfl⟩
  · obtain ⟨before, after, hlist⟩ := append_of_mem hmem
    have hplaced := hs.placed
    have hsize := hs.size
    rw [hlist] at hplaced
    rw [hlist, bytesOf_append, bytesOf_cons, length_append, length_append] at hsize
    obtain ⟨-, hstart, -⟩ := placed_append.mp hplaced
    rw [hstart] at hpartly ⊢
    have hoffset : (s.firstByteSeq + BitVec.ofNat 32 (bytesOf before).length - s.firstByteSeq).toNat =
        (bytesOf before).length := by
      rw [add_sub_self, BitVec.toNat_ofNat, Nat.mod_eq_of_lt (by omega)]
    have hbytes := toNat_bytes numBytes hsmall
      (show (bytesOf before).length ≤ s.size.toNat by omega)
    have hitem := hs.nonempty_sent item hmem
    have hsentSize := hs.sentSize
    rw [hlist, bytesOf_append, bytesOf_cons, length_append, length_append] at hsentSize
    cases lt_or_ge s.sentSize.toNat ((bytesOf before).length + min numBytes.toNat
        (s.size.toNat - (bytesOf before).length)) with
    | inl hlt =>
      rw [← hbytes] at hlt
      refine copyFromSequence_partly hs hsmall hlist hsacked rfl hlt (hpartly ⟨?_, ?_⟩)
      · rw [hoffset]
        omega
      · rw [hoffset]
        exact hlt
    | inr hge => exact copyFromSequenceIn_again hs hsmall hlist hsacked hpos now 1 hge
  · exact copyFromSequenceIn_new hs hclean hsmall happ hpos now 1

theorem Sends.serves {s' : TcpTxBuffer} {sent : TcpTxItem}
    (hsmall : s.size.toNat < 2 ^ 31) (h : Sends s numBytes seq now s' sent) :
    sent.startSeq = seq ∧ 0 < sent.packet.length ∧ sent.packet.length ≤ numBytes.toNat ∧
      sent.packet = ((contents s).drop (seq - s.firstByteSeq).toNat).take sent.packet.length := by
  have hsize := hs.size
  cases h with
  | @new item rest retrans nodes hseq hedit hnodes hlen hretrans =>
    obtain ⟨hpos, -⟩ := nonempty_cons.mp (hedit.nonempty hs.nonempty_app)
    refine ⟨rfl, hpos, hlen (by omega), ?_⟩
    rw [hseq, add_sub_self, hs.sentSize, contents, drop_left, ← hedit.bytesOf_eq, bytesOf_cons]
    exact take_left.symm
  | @again item before after retrans nodes hedit hnodes hplace hlen hsacked =>
    obtain ⟨-, hafter⟩ := nonempty_append.mp (hedit.nonempty hs.nonempty_sent)
    obtain ⟨-, hstart, -⟩ := placed_append.mp (hedit.placed hs.placed)
    refine ⟨?_, (nonempty_cons.mp hafter).1, hlen (by omega), ?_⟩
    · rw [hplace, add_ofNat_toNat, add_sub] at hstart
      exact hstart
    · rw [← hplace, contents, ← hedit.bytesOf_eq, bytesOf_append, bytesOf_cons, append_assoc,
        drop_left, append_assoc]
      exact take_left.symm

end

end Copy

/-! ## 4. Failures -/

section Failures

variable {α β : Type}

theorem harmless_ok (a : α) : Harmless (.ok a) := by
  constructor
  · intro h
    cases h
  · intro h
    cases h

theorem harmless_error {e : Failure} (h : e ≠ .getPacketFromList ∧ e ≠ .mergeItems) :
    Harmless (.error e : Except Failure α) :=
  ⟨fun he => h.1 (Except.error.inj he), fun he => h.2 (Except.error.inj he)⟩

theorem Harmless.bind {x : Except Failure α} {f : α → Except Failure β} (hx : Harmless x)
    (hf : ∀ a, x = .ok a → Harmless (f a)) : Harmless (x >>= f) := by
  cases x with
  | error e =>
    exact ⟨fun h => hx.1 (congrArg _ (Except.error.inj h)),
      fun h => hx.2 (congrArg _ (Except.error.inj h))⟩
  | ok a => exact hf a rfl

theorem Harmless.map {x : Except Failure α} {f : α → β} (hx : Harmless x) : Harmless (x.map f) := by
  cases x with
  | error e =>
    exact ⟨fun h => hx.1 (congrArg _ (Except.error.inj h)),
      fun h => hx.2 (congrArg _ (Except.error.inj h))⟩
  | ok a => exact harmless_ok _

end Failures

section Operations

variable {s s' : TcpTxBuffer} {now : Int}

theorem harmless_removeFromCounts (item : TcpTxItem) (size : BitVec 32) :
    Harmless (s.removeFromCounts item size) := by
  unfold removeFromCounts
  split
  · exact harmless_error (by decide)
  · exact harmless_ok _

theorem harmless_addRenoSack : Harmless s.addRenoSack := by
  unfold addRenoSack
  split
  · exact harmless_error (by decide)
  · split
    · exact harmless_error (by decide)
    · split
      · exact harmless_ok _
      · exact harmless_ok _

theorem harmless_settleHead : Harmless s.settleHead := by
  unfold settleHead
  split
  · exact harmless_ok _
  · split
    · split
      · exact harmless_error (by decide)
      · exact harmless_addRenoSack.bind fun _ _ => harmless_ok _
    · exact harmless_ok _

theorem harmless_sackItems (block : SackBlock) (items : List TcpTxItem) (start : SequenceNumber32)
    (result : TcpTxBuffer × BitVec 32) : Harmless (sackItems block start items result) := by
  induction items generalizing start result with
  | nil => exact harmless_ok _
  | cons item rest ih =>
    unfold sackItems
    split
    · split
      · split
        · exact harmless_error (by decide)
        · exact (ih _ _).bind fun _ _ => harmless_ok _
      · exact (ih _ _).bind fun _ _ => harmless_ok _
    · split
      · exact harmless_ok _
      · exact (ih _ _).bind fun _ _ => harmless_ok _

theorem harmless_updateBlocks (blocks : List SackBlock) (result : TcpTxBuffer × BitVec 32) :
    Harmless (updateBlocks blocks result) := by
  induction blocks generalizing result with
  | nil => exact harmless_ok _
  | cons block blocks ih =>
    unfold updateBlocks
    split
    · exact harmless_ok _
    · exact (harmless_sackItems _ _ _ _).bind fun _ _ => ih _

theorem harmless_recountLost (bytesSacked : BitVec 32) : Harmless (s.recountLost bytesSacked) := by
  unfold recountLost
  split
  · split
    · exact harmless_error (by decide)
    · unfold updateLostCount
      split
      · dsimp only
        split
        · exact harmless_ok _
        · exact harmless_ok _
      · exact harmless_error (by decide)
  · exact harmless_ok _

theorem harmless_update (list : List SackBlock) : Harmless (s.update list) := by
  refine (harmless_updateBlocks list (s, 0)).bind fun result _ => ?_
  dsimp only
  split
  · exact harmless_ok _
  · refine (harmless_recountLost _).bind fun s₁ _ => ?_
    split
    · exact harmless_error (by decide)
    · exact harmless_ok _

theorem harmless_setSentListLost (resetSack : Bool) : Harmless (s.setSentListLost resetSack) := by
  unfold setSentListLost
  dsimp only
  split
  · exact harmless_error (by decide)
  · exact harmless_ok _

theorem harmless_moveToSentList (hs : Layout s) (hclean : Clean s) (hsmall : s.size.toNat < 2 ^ 31)
    (hsize : s.size ≠ 0) {offset : BitVec 32} (hoffset : offset ≠ 0) :
    Harmless (s.moveToSentList offset now) := by
  unfold moveToSentList
  split
  · next hempty =>
    have hsent := hs.sentSize
    have hlen := hs.size
    rw [hempty, bytesOf_nil, length_nil] at hsent hlen
    have hzero : s.firstByteSeq + s.sentSize = s.firstByteSeq := by
      rw [eq_of_toNat_eq (x := s.sentSize) (y := 0#32) hsent, add_zero]
    have happ : s.appList ≠ [] := by
      intro h0
      rw [h0, bytesOf_nil] at hlen
      exact hsize (eq_of_toNat_eq hlen)
    obtain ⟨s', sent, hcopy⟩ := copyFromSequenceIn_new hs hclean hsmall happ
      (toNat_pos_of_ne_zero hoffset) now 1
    rw [hzero] at hcopy
    unfold copyFromSequence
    rw [hcopy]
    exact harmless_ok s'
  · exact harmless_ok _

theorem moveToSentList_ok (hs : Layout s) {offset : BitVec 32}
    (h : s.moveToSentList offset now = .ok s') :
    s' = s ∨ ∃ item, Sends s offset s.firstByteSeq now s' item := by
  unfold moveToSentList at h
  split at h
  · obtain ⟨⟨s₁, result⟩, hcopy, h⟩ := except_bind_eq_ok.mp h
    rcases copyFromSequence_ok hs hcopy with ⟨rfl, -⟩ | ⟨item, rfl, hsends⟩
    · cases h
    · cases h
      exact .inr ⟨item, hsends⟩
  · cases h
    exact .inl rfl

theorem Sends.size_eq {numBytes : BitVec 32} {seq : SequenceNumber32} {item : TcpTxItem}
    (h : Sends s numBytes seq now s' item) : s'.size = s.size := by
  cases h with
  | new => rfl
  | again => rfl

theorem harmless_discard (hs : Layout s) (hclean : Clean s) (hsmall : s.size.toNat < 2 ^ 31)
    (rounds : Nat) (offset : BitVec 32) : Harmless (TcpTxBuffer.discard now rounds offset s) := by
  induction rounds generalizing s offset with
  | zero => exact harmless_error (by decide)
  | succ rounds ih =>
    unfold TcpTxBuffer.discard
    split
    · exact harmless_ok _
    · next hmore =>
      obtain ⟨hsize, hoffset⟩ := not_or.mp hmore
      refine (harmless_moveToSentList hs hclean hsmall hsize hoffset).bind fun s₁ hmove => ?_
      have hkept : Layout s₁ ∧ Clean s₁ ∧ s₁.size = s.size := by
        rcases moveToSentList_ok hs hmove with rfl | ⟨item, hsends⟩
        · exact ⟨hs, hclean, rfl⟩
        · exact ⟨hs.sends hsends, hclean.sends hsends, hsends.size_eq⟩
      obtain ⟨hs₁, hclean₁, hsize₁⟩ := hkept
      split
      · exact harmless_error (by decide)
      · next item rest hlist =>
        split
        · exact harmless_error (by decide)
        · split
          · refine (harmless_removeFromCounts _ _).bind fun s₂ hcounts => ?_
            cases removeFromCounts_ok hcounts
            refine ih ((hs₁.withoutHead hlist).uncounted _) hclean₁ ?_ _
            obtain ⟨-, hitem, hsent⟩ := hs₁.length_head hlist
            have hlen := hs₁.size
            rw [← hs₁.sentSize] at hlen
            show (s₁.size - item.size).toNat < 2 ^ 31
            rw [BitVec.toNat_sub_of_le (le_def.mpr (by omega)), hsize₁]
            exact lt_of_le_of_lt (Nat.sub_le _ _) hsmall
          · exact harmless_removeFromCounts _ _

theorem harmless_discardUpTo (hs : Layout s) (hclean : Clean s) (hsmall : s.size.toNat < 2 ^ 31)
    (seq : SequenceNumber32) : Harmless (s.discardUpTo seq now) := by
  unfold discardUpTo
  split
  · exact harmless_ok _
  · refine (harmless_discard hs hclean hsmall _ _).bind fun s₁ _ => ?_
    refine harmless_settleHead.bind fun s₂ _ => ?_
    dsimp only
    have hend (s₃ : TcpTxBuffer) : Harmless (if s₃.firstByteSeq.ge seq &&
        s₃.sackedOut + s₃.lostOut ≤ s₃.sentSize then pure s₃ else throw .discardUpTo) := by
      split
      · exact harmless_ok _
      · exact harmless_error (by decide)
    split
    · exact harmless_error (by decide)
    · exact hend _

theorem harmless_perform (hs : Layout s) (hclean : Clean s)
    (hoperation : StreamOperation s operation) (hsafe : StreamSafe s operation) :
    Harmless (s.perform operation) := by
  cases operation with
  | copyFromSequence numBytes seq now =>
    obtain ⟨hpos, hbegins⟩ := hoperation
    obtain ⟨s', sent, hcopy⟩ := copyFromSequence_begins hs hclean hpos hbegins hsafe
    refine Harmless.map ?_
    rw [hcopy]
    exact harmless_ok _
  | discardUpTo seq now => exact (harmless_discardUpTo hs hclean hsafe seq).map
  | update list => exact (harmless_update list).map
  | setSentListLost resetSack => exact (harmless_setSentListLost resetSack).map
  | add | resetSentList | resetLastSegmentSent => exact harmless_ok _
  | _ => cases hoperation

/-! ## 5. Runs -/

/-- The invariant between the buffer and the stream. -/
structure Follows (s : TcpTxBuffer) (stream : Stream) : Prop where
  head : s.firstByteSeq = stream.head
  contents : contents s = stream.accepted.drop stream.discarded
  discarded_le : stream.discarded ≤ stream.accepted.length

theorem Relabelled.follows (h : Relabelled s s') (hf : Follows s stream) : Follows s' stream where
  head := h.firstByteSeq.trans hf.head
  contents := h.contents_eq.trans hf.contents
  discarded_le := hf.discarded_le

theorem Follows.add (hf : Follows s stream) (p : Packet) :
    Follows (s.add p).1 (stream.advance (.add p) (.flag (s.add p).2)) := by
  unfold TcpTxBuffer.add
  dsimp only
  have hdrop : (stream.accepted ++ p.bytes).drop stream.discarded =
      stream.accepted.drop stream.discarded ++ p.bytes :=
    drop_append_of_le_length hf.discarded_le
  have hle : stream.discarded ≤ (stream.accepted ++ p.bytes).length := by
    rw [length_append]
    exact Nat.le_add_right_of_le hf.discarded_le
  split
  · split
    · refine ⟨hf.head, ?_, hle⟩
      show bytesOf s.sentList ++ bytesOf (s.appList ++ [_]) =
        (stream.accepted ++ p.bytes).drop stream.discarded
      rw [hdrop, ← hf.contents, Tcp.contents, bytesOf_append, bytesOf_cons, bytesOf_nil,
        append_nil, append_assoc]
    · next hempty =>
      have hnil : p.bytes = [] := by
        refine eq_nil_of_length_eq_zero (Nat.eq_zero_of_not_pos fun hpos => hempty ?_)
        show 0 < p.bytes.length % 2 ^ 32
        rw [Nat.mod_eq_of_lt p.bounded]
        exact hpos
      refine ⟨hf.head, ?_, hle⟩
      show Tcp.contents s = (stream.accepted ++ p.bytes).drop stream.discarded
      rw [hdrop, hnil, append_nil]
      exact hf.contents
  · exact hf

theorem Follows.sends (hf : Follows s stream) {numBytes : BitVec 32} {seq : SequenceNumber32}
    {item : TcpTxItem} (h : Sends s numBytes seq now s' item) :
    Follows s' stream where
  head := h.firstByteSeq_eq.trans hf.head
  contents := h.contents_eq.trans hf.contents
  discarded_le := hf.discarded_le

/-- The loop and what follows it end at the number, also when the data is used up before. -/
theorem Follows.discardUpTo (hf : Follows s stream) (hs : Layout s) {seq : SequenceNumber32}
    (h : s.discardUpTo seq now = .ok s') :
    Follows s' (stream.advance (.discardUpTo seq now) .nothing) := by
  unfold Stream.advance
  rcases discardUpTo_ok hs h with ⟨hge, rfl⟩ | ⟨s₁, s₂, hge, hdrops, hsettle, rfl, -⟩
  · dsimp only
    rw [← hf.head, if_pos hge]
    exact hf
  · dsimp only
    rw [← hf.head, if_neg (Bool.eq_false_iff.mp hge)]
    have hcontents := hdrops.contents_eq hs
    have hack : Follows (acknowledged s₁ seq) { stream with
        discarded := min (stream.discarded + (seq - s.firstByteSeq).toNat) stream.accepted.length
        head := seq } := by
      constructor
      case head => exact hdrops.acknowledged hs
      case contents =>
        show Tcp.contents s₁ = stream.accepted.drop
          (min (stream.discarded + (seq - s.firstByteSeq).toNat) stream.accepted.length)
        rw [hcontents, hf.contents, drop_drop, ← drop_eq_drop_min]
      case discarded_le => exact Nat.min_le_right _ _
    have hsettled := (settleHead_relabelled hsettle).follows hack
    exact ⟨hsettled.head, hsettled.contents, hsettled.discarded_le⟩

theorem not_looks (h : StreamOperation s operation) : ¬Looks operation := by
  cases operation with
  | add | copyFromSequence | discardUpTo | update | setSentListLost | resetSentList
  | resetLastSegmentSent => exact not_false
  | _ => cases h

theorem Follows.perform (hf : Follows s stream) (hs : Layout s)
    (hoperation : StreamOperation s operation) {result : Result}
    (h : s.perform operation = .ok (s', result)) :
    Follows s' (stream.advance operation result) := by
  cases hs.performs h with
  | add p => exact hf.add p
  | sendsNothing => exact hf
  | sends hsends => exact hf.sends hsends
  | discardUpTo hdiscard => exact hf.discardUpTo hs hdiscard
  | update hupdate => exact (update_relabelled hupdate).follows hf
  | setSentListLost resetSack => exact (loseSentList_relabelled resetSack).follows hf
  | resetSentList =>
    refine ⟨hf.head, ?_, hf.discarded_le⟩
    have hsegments : segments (s.sentList.map fun item =>
        { item with retrans := false, sacked := false, lost := false }) = segments s.sentList :=
      segments_map rfl fun _ => ⟨rfl, rfl⟩
    show [] ++ bytesOf (_ ++ s.appList) = _
    rw [nil_append, bytesOf_append, bytesOf_eq_segments, hsegments, ← bytesOf_eq_segments]
    exact hf.contents
  | resetLastSegmentSent =>
    rcases resetLastSegmentSent_eq (s := s) with ⟨-, heq⟩ | ⟨items, item, hlist, heq⟩
    · rw [heq]
      exact hf
    · have hcontents := hf.contents
      rw [Tcp.contents, hlist, bytesOf_append, bytesOf_cons, bytesOf_nil, append_nil,
        append_assoc] at hcontents
      rw [heq]
      exact ⟨hf.head, hcontents, hf.discarded_le⟩
  | looks hlooks => exact absurd hlooks (not_looks hoperation)
  | _ => cases hoperation

theorem serves_of_follows (hf : Follows s stream) (hs : Layout s) (hclean : Clean s)
    (hoperation : StreamOperation s operation) (hsafe : StreamSafe s operation) :
    Serves s stream operation := by
  cases operation with
  | copyFromSequence numBytes seq now =>
    obtain ⟨hpos, hbegins⟩ := hoperation
    obtain ⟨s', sent, hcopy⟩ := copyFromSequence_begins hs hclean hpos hbegins hsafe
    refine ⟨s', sent, congrArg (Except.map _) hcopy, ?_⟩
    rcases copyFromSequence_ok hs hcopy with ⟨hnone, -⟩ | ⟨item, hsome, hsends⟩
    · cases hnone
    · cases hsome
      rw [← drop_drop, ← hf.contents, ← hf.head]
      exact hsends.serves hs hsafe.1
  | _ => trivial

end Operations

section Runs

variable (n maxBuffer dupAckThresh segmentSize : BitVec 32) (sackEnabled : Bool)

/-- In every state of a run the buffer holds the stream, and the next step finds what it looks
for. -/
theorem stream_of_run {operations : List Operation} {s : TcpTxBuffer} {stream : Stream}
    (h : FallibleRun streamStep
      (fun s operation => StreamOperation s.1 operation ∧ StreamSafe s.1 operation)
      (initial n maxBuffer dupAckThresh segmentSize sackEnabled, ⟨[], 0, ⟨n⟩⟩) operations
      (s, stream)) :
    Integrity s stream ∧ ∀ operation, StreamOperation s operation → StreamSafe s operation →
      Harmless (s.perform operation) ∧ Serves s stream operation := by
  have hsteps : ∀ (s : TcpTxBuffer × Stream) operation s',
      Layout s.1 ∧ Clean s.1 ∧ Follows s.1 s.2 →
      StreamOperation s.1 operation ∧ StreamSafe s.1 operation →
      streamStep s operation = .ok s' → Layout s'.1 ∧ Clean s'.1 ∧ Follows s'.1 s'.2 := by
    rintro s operation s' ⟨hs, hclean, hf⟩ ⟨hoperation, hsafe⟩ hstep
    obtain ⟨⟨s₁, result⟩, hperform, heq⟩ := except_map_eq_ok.mp hstep
    cases heq
    have hback : PutBackSafe s.1 operation := by
      cases operation with
      | resetLastSegmentSent => exact hsafe
      | _ => trivial
    refine ⟨hs.perform hperform, hclean.step hs hback ?_, hf.perform hs hoperation hperform⟩
    exact except_map_eq_ok.mpr ⟨_, hperform, rfl⟩
  have hinit : Follows (initial n maxBuffer dupAckThresh segmentSize sackEnabled) ⟨[], 0, ⟨n⟩⟩ :=
    ⟨rfl, rfl, Nat.le_refl 0⟩
  obtain ⟨hs, hclean, hf⟩ := h.invariant
    (fun s => Layout s.1 ∧ Clean s.1 ∧ Follows s.1 s.2) hsteps
    ⟨layout_initial _ _ _ _ _, show Clean (initial n maxBuffer dupAckThresh segmentSize sackEnabled)
      from List.forall_mem_nil _, hinit⟩
  refine ⟨⟨?_, ?_, hs.sentSize, hf.head, hs.placed⟩, fun operation hoperation hsafe =>
    ⟨harmless_perform hs hclean hoperation hsafe, serves_of_follows hf hs hclean hoperation hsafe⟩⟩
  · rw [bytesOf_append]
    exact hf.contents
  · rw [bytesOf_append]
    exact hs.length_contents.symm

end Runs

/-- Three bytes are added and one is sent. -/
def sendOne : List Operation := [.add ⟨[0, 1, 2], by decide⟩, .copyFromSequence 1 ⟨10⟩ 0]

/-- The sent byte is asked for again, together with the others. -/
theorem stream_of_run_three : ∃ s,
    sendOne.foldlM streamStep (initial 10 100 3 1 true, ⟨[], 0, ⟨10⟩⟩) =
      .ok (s, ⟨[0, 1, 2], 0, ⟨10⟩⟩) ∧
    Integrity s ⟨[0, 1, 2], 0, ⟨10⟩⟩ ∧ Harmless (s.perform (.copyFromSequence 3 ⟨10⟩ 0)) ∧
    Serves s ⟨[0, 1, 2], 0, ⟨10⟩⟩ (.copyFromSequence 3 ⟨10⟩ 0) := by
  refine ⟨_, rfl, ?_⟩
  have h := stream_of_run 10 100 3 1 true
    (show FallibleRun streamStep
      (fun s operation => StreamOperation s.1 operation ∧ StreamSafe s.1 operation)
      (initial 10 100 3 1 true, ⟨[], 0, ⟨10⟩⟩) sendOne _ from
      .cons ⟨trivial, trivial⟩ rfl (.cons ⟨⟨by decide, .inr ⟨List.cons_ne_nil _ _, by decide⟩⟩,
        by decide, by unfold PartlySent; decide⟩ rfl (.nil _)))
  exact ⟨h.1, h.2 _ ⟨by decide, .inl ⟨_, List.mem_singleton_self _, by decide, by decide⟩⟩
    ⟨by decide, by unfold PartlySent; decide⟩⟩

/-- A segment is marked as lost and put back in front of bytes that are not: they cannot be
merged. -/
theorem flagged_segment_put_back : ∃ s stream,
    FallibleRun streamStep (fun s operation => StreamOperation s.1 operation)
      (initial 10 100 3 1 true, ⟨[], 0, ⟨10⟩⟩)
      [.add ⟨[0, 1, 2], by decide⟩, .copyFromSequence 1 ⟨10⟩ 0, .setSentListLost false,
        .resetLastSegmentSent] (s, stream) ∧
    StreamOperation s (.copyFromSequence 2 ⟨10⟩ 0) ∧
    s.perform (.copyFromSequence 2 ⟨10⟩ 0) = .error .mergeItems :=
  ⟨_, _, .cons trivial rfl (.cons ⟨by decide, .inr ⟨List.cons_ne_nil _ _, by decide⟩⟩ rfl
      (.cons trivial rfl (.cons trivial rfl (.nil _)))),
    ⟨by decide, .inr ⟨List.cons_ne_nil _ _, by decide⟩⟩, by decide⟩

/-- Two of three bytes are sent, the second of them has the number `0`; all three are asked
for. -/
theorem partly_sent_across_zero : ∃ s stream,
    FallibleRun streamStep (fun s operation => StreamOperation s.1 operation)
      (initial 0xffffffff 100 3 1 true, ⟨[], 0, ⟨0xffffffff⟩⟩)
      [.add ⟨[0, 1, 2], by decide⟩, .copyFromSequence 2 ⟨0xffffffff⟩ 0] (s, stream) ∧
    StreamOperation s (.copyFromSequence 3 ⟨0xffffffff⟩ 0) ∧
    s.perform (.copyFromSequence 3 ⟨0xffffffff⟩ 0) = .error .nullItem :=
  ⟨_, _, .cons trivial rfl (.cons ⟨by decide, .inr ⟨cons_ne_nil _ _, by decide⟩⟩ rfl
      (.nil _)),
    ⟨by decide, .inl ⟨_, mem_singleton_self _, by decide, by decide⟩⟩, by decide⟩

end MoeJit.Tcp
