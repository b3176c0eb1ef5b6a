import MoeJit.Internet.TcpTxStream

/-!
# `NextSeg` and its rules

`NextSeg` chooses what is sent next: the lowest segment that is lost (rule 1), data that was never
sent (rule 2), in recovery the lowest segment that may be lost (rule 3). One pass finds the
segments for the first rule and the third; a segment saved for the third rule is taken as not set
when its sequence number is `0`.

`NextSegRight` says what the rules choose, `NextSegSafe` where the code chooses it, in every state
of a run (`nextSeg_right_iff`).
-/

namespace MoeJit.Tcp

open TcpTxBuffer List
open SequenceNumber32 (add_assoc add_ofNat_inj add_sub_self add_zero)

/-! ## 1. The rules -/

/-- Neither sent again nor sacked. -/
def TcpTxItem.eligible (item : TcpTxItem) : Bool := !item.retrans && !item.sacked

def TcpTxItem.lostEligible (item : TcpTxItem) : Bool := item.eligible && item.lost

namespace TcpTxBuffer

/-- The number of the first byte that was never sent. -/
def unsent (s : TcpTxBuffer) : SequenceNumber32 := s.firstByteSeq + s.sentSize

/-- Starts at `seq`, with any end. -/
def StartsAt (seq : SequenceNumber32) (result : Option (SequenceNumber32 × SequenceNumber32)) :
    Prop :=
  ∃ high, result = some (seq, high)

/-- The first byte that was never sent, up to a byte that is inside the window. -/
def StartsUnsent (s : TcpTxBuffer) (rWnd : BitVec 32)
    (result : Option (SequenceNumber32 × SequenceNumber32)) : Prop :=
  ∃ high, result = some (s.unsent, high) ∧ high - s.firstByteSeq ≤ rWnd

/-- What the rules choose. -/
def NextSegRight (s : TcpTxBuffer) (rWnd : BitVec 32) (isRecovery : Bool)
    (result : Option (SequenceNumber32 × SequenceNumber32)) : Prop :=
  match s.sentList.find? TcpTxItem.lostEligible with
  | some item => StartsAt item.startSeq result
  | none =>
    if s.appList ≠ [] then
      if s.sentSize < rWnd then StartsUnsent s rWnd result else result = none
    else if isRecovery then
      match s.sentList.find? TcpTxItem.eligible with
      | some item => StartsAt item.startSeq result
      | none => result = none
    else result = none

/-- The lowest eligible segment does not begin at `0`, or is the only one. -/
def LowestKept (s : TcpTxBuffer) : Prop :=
  ∀ item others, s.sentList.filter TcpTxItem.eligible = item :: others →
    item.startSeq.value ≠ 0 ∨ others = []

/-- Where the code follows the rules. Unsent data is not seen when `TailSequence` is not past it,
from `2 ^ 31` bytes on. -/
def NextSegSafe (s : TcpTxBuffer) (rWnd : BitVec 32) (isRecovery : Bool) : Prop :=
  (∃ item ∈ s.sentList, item.lostEligible) ∨
    (s.appList = [] ∧ (isRecovery → LowestKept s)) ∨
    (s.appList ≠ [] ∧ (s.tailSequence.ge s.unsent ∨
      (¬s.sentSize < rWnd ∧ (isRecovery → ∀ item ∈ s.sentList, item.eligible = false))))

end TcpTxBuffer

/-! ## 2. The pass -/

/-- What the third rule saves of the starts, one after the other. -/
def saved (isRecovery : Bool) (rule3 : SequenceNumber32 × Bool) (starts : List SequenceNumber32) :
    SequenceNumber32 × Bool :=
  starts.foldl (fun rule3 start => if rule3.1.value = 0 ∧ isRecovery then (start, true) else rule3)
    rule3

section Pass

variable {items : List TcpTxItem} {start : SequenceNumber32} {isRecovery : Bool}

theorem nextSegFrom_cons (item : TcpTxItem) (items : List TcpTxItem)
    (rule3 : SequenceNumber32 × Bool) :
    nextSegFrom isRecovery start (item :: items) rule3 = if item.eligible then
        if item.lost then .error start
        else nextSegFrom isRecovery (start + item.size) items
          (if rule3.1.value = 0 ∧ isRecovery then (start, true) else rule3)
      else nextSegFrom isRecovery (start + item.size) items rule3 := rfl

theorem nextSegFrom_lost (hplaced : Placed start items) {item : TcpTxItem}
    (hfind : items.find? TcpTxItem.lostEligible = some item)
    (rule3 : SequenceNumber32 × Bool) :
    nextSegFrom isRecovery start items rule3 = .error item.startSeq := by
  induction items generalizing start rule3 with
  | nil => cases hfind
  | cons head rest ih =>
    obtain ⟨hstart, hrest⟩ := hplaced
    rw [nextSegFrom_cons]
    by_cases heligible : head.eligible = true
    · rw [if_pos heligible]
      by_cases hlost : head.lost = true
      · have hhead : head.lostEligible = true := Bool.and_eq_true_iff.mpr ⟨heligible, hlost⟩
        rw [find?_cons_of_pos hhead] at hfind
        rw [if_pos hlost, ← hstart, Option.some.inj hfind]
      · have hhead : ¬head.lostEligible = true := fun h => hlost (Bool.and_eq_true_iff.mp h).2
        rw [find?_cons_of_neg hhead] at hfind
        rw [if_neg hlost]
        exact ih hrest hfind _
    · have hhead : ¬head.lostEligible = true := fun h =>
        heligible (Bool.and_eq_true_iff.mp h).1
      rw [find?_cons_of_neg hhead] at hfind
      rw [if_neg heligible]
      exact ih hrest hfind _

theorem nextSegFrom_none (hplaced : Placed start items)
    (hnone : ∀ item ∈ items, ¬item.lostEligible = true) (rule3 : SequenceNumber32 × Bool) :
    nextSegFrom isRecovery start items rule3 = .ok (saved isRecovery rule3
        ((items.filter TcpTxItem.eligible).map TcpTxItem.startSeq)) := by
  induction items generalizing start rule3 with
  | nil => rfl
  | cons head rest ih =>
    obtain ⟨hstart, hrest⟩ := hplaced
    obtain ⟨hhead, hnone⟩ := forall_mem_cons.mp hnone
    rw [nextSegFrom_cons]
    by_cases heligible : head.eligible = true
    · have hlost : ¬head.lost = true := fun h => hhead (Bool.and_eq_true_iff.mpr ⟨heligible, h⟩)
      rw [if_pos heligible, if_neg hlost, ih hrest hnone, filter_cons_of_pos heligible,
        map_cons, hstart]
      rfl
    · rw [if_neg heligible, ih hrest hnone, filter_cons_of_neg heligible]

theorem saved_of_not {rule3 : SequenceNumber32 × Bool} (hnot : ¬(rule3.1.value = 0 ∧ isRecovery))
    (starts : List SequenceNumber32) : saved isRecovery rule3 starts = rule3 := by
  induction starts with
  | nil => rfl
  | cons start starts ih =>
    show saved isRecovery (if _ then _ else _) starts = rule3
    rw [if_neg hnot]
    exact ih

theorem saved_of_ne_zero {rule3 : SequenceNumber32 × Bool} (hne : rule3.1.value ≠ 0)
    (starts : List SequenceNumber32) : saved isRecovery rule3 starts = rule3 :=
  saved_of_not (fun h => hne h.1) starts

/-- The first start is what is saved in the end, unless it is `0` and another one follows. -/
theorem saved_eq_first_iff {first : SequenceNumber32} {starts : List SequenceNumber32}
    (hne : ∀ start ∈ starts, start ≠ first) :
    saved true (⟨0⟩, false) (first :: starts) = (first, true) ↔ first.value ≠ 0 ∨ starts = [] := by
  show saved true (first, true) starts = (first, true) ↔ _
  by_cases hzero : first.value = 0
  · cases starts with
    | nil => exact ⟨fun _ => .inr rfl, fun _ => rfl⟩
    | cons second starts =>
      have hsecond : second ≠ first := hne second mem_cons_self
      have hval : second.value ≠ 0 := fun h =>
        hsecond (congrArg SequenceNumber32.mk (h.trans hzero.symm))
      have hsaved : saved true (first, true) (second :: starts) = (second, true) := by
        show saved true (if _ then _ else _) starts = _
        rw [if_pos ⟨hzero, rfl⟩, saved_of_ne_zero hval]
      rw [hsaved]
      exact ⟨fun h => absurd (congrArg Prod.fst h) hsecond,
        fun h => absurd (h.resolve_left (not_not_intro hzero)) (cons_ne_nil _ _)⟩
  · rw [saved_of_ne_zero hzero]
    exact ⟨fun _ => .inl hzero, fun _ => rfl⟩

theorem exists_saved (first : SequenceNumber32) (starts : List SequenceNumber32) :
    ∃ start ∈ first :: starts, saved true (first, true) starts = (start, true) := by
  induction starts generalizing first with
  | nil => exact ⟨first, mem_cons_self, rfl⟩
  | cons second starts ih =>
    by_cases hzero : first.value = 0
    · obtain ⟨start, hmem, hsaved⟩ := ih second
      refine ⟨start, mem_cons_of_mem _ hmem, ?_⟩
      show saved true (if _ then _ else _) starts = _
      rw [if_pos ⟨hzero, rfl⟩, hsaved]
    · exact ⟨first, mem_cons_self, saved_of_ne_zero hzero _⟩

theorem pairwise_startSeq (hplaced : Placed start items) (hne : Nonempty items)
    (hlen : (bytesOf items).length < 2 ^ 32) :
    items.Pairwise fun a b => b.startSeq ≠ a.startSeq := by
  induction items generalizing start with
  | nil => exact .nil
  | cons head rest ih =>
    obtain ⟨hstart, hrest⟩ := hplaced
    obtain ⟨hpos, hne⟩ := nonempty_cons.mp hne
    rw [bytesOf_cons, length_append] at hlen
    refine .cons (fun item hitem heq => ?_)
      (ih hrest hne (Nat.lt_of_le_of_lt (Nat.le_add_left _ _) hlen))
    obtain ⟨k, hk, hplace⟩ := placed_offset hrest hitem
    rw [add_size_add, heq, hstart] at hplace
    have hzero := (add_ofNat_inj start (x := 0)
      (y := head.packet.length + k) (by omega) (by omega)).mp ((add_zero start).trans hplace)
    omega

end Pass

/-! ## 3. What is chosen -/

/-- What the third rule returns, when the pass found no lost segment. -/
def rule3Choice (s : TcpTxBuffer) (isRecovery : Bool) :
    Option (SequenceNumber32 × SequenceNumber32) :=
  let rule3 := saved isRecovery (⟨0⟩, false)
    ((s.sentList.filter TcpTxItem.eligible).map TcpTxItem.startSeq)
  if rule3.2 then some (rule3.1, rule3.1 + s.segmentSize) else none

section Choice

variable {s : TcpTxBuffer} {rWnd : BitVec 32} {isRecovery : Bool}

theorem startsAt_some {seq seq' high : SequenceNumber32} :
    StartsAt seq (some (seq', high)) ↔ seq' = seq := by
  constructor
  · rintro ⟨high', h⟩
    exact congrArg Prod.fst (Option.some.inj h)
  · rintro rfl
    exact ⟨high, rfl⟩

theorem nextSeg_lost (hs : Layout s) {item : TcpTxItem}
    (hfind : s.sentList.find? TcpTxItem.lostEligible = some item) :
    s.nextSeg rWnd isRecovery = some (item.startSeq, item.startSeq + s.segmentSize) := by
  unfold nextSeg
  rw [nextSegFrom_lost hs.placed hfind]

theorem nextSeg_none (hs : Layout s) (hnone : ∀ item ∈ s.sentList, ¬item.lostEligible = true) :
    s.nextSeg rWnd isRecovery = if 0 < s.sizeFromSequence s.unsent then
        if s.sentSize < rWnd then
          some (s.unsent, s.unsent + minimum s.segmentSize (rWnd - s.sentSize))
        else none
      else rule3Choice s isRecovery := by
  unfold nextSeg
  rw [nextSegFrom_none hs.placed hnone]
  rfl

theorem sizeFromSequence_unsent (hs : Layout s) :
    0 < s.sizeFromSequence s.unsent ↔ s.appList ≠ [] ∧ s.tailSequence.ge s.unsent = true := by
  have hsize : s.tailSequence - s.unsent = BitVec.ofNat 32 (bytesOf s.appList).length := by
    show s.firstByteSeq + s.size - (s.firstByteSeq + s.sentSize) = _
    rw [hs.size_eq, hs.sentSize_eq, BitVec.ofNat_add, ← add_assoc, add_sub_self]
  have hempty : 0#32 < BitVec.ofNat 32 (bytesOf s.appList).length ↔ s.appList ≠ [] := by
    rw [BitVec.lt_def, BitVec.toNat_ofNat, BitVec.toNat_ofNat, Nat.mod_eq_of_lt hs.length_app_lt]
    constructor
    · rintro hpos hnil
      rw [hnil] at hpos
      exact lt_irrefl 0 hpos
    · intro hne
      refine pos_of_ne_zero fun hzero => hne ?_
      exact eq_nil_of_length_bytesOf hs.nonempty_app hzero
  unfold sizeFromSequence
  by_cases hge : s.tailSequence.ge s.unsent = true
  · rw [if_pos hge, hsize]
    exact hempty.trans ⟨fun h => ⟨h, hge⟩, And.left⟩
  · rw [if_neg hge]
    exact ⟨fun h => absurd h (BitVec.lt_irrefl _), fun h => absurd h.2 hge⟩

theorem startsUnsent_minimum (hwindow : s.sentSize < rWnd) : StartsUnsent s rWnd
      (some (s.unsent, s.unsent + minimum s.segmentSize (rWnd - s.sentSize))) := by
  refine ⟨_, rfl, ?_⟩
  have hmin : (minimum s.segmentSize (rWnd - s.sentSize)).toNat ≤ (rWnd - s.sentSize).toNat :=
    minimum_le_right _ _
  show s.firstByteSeq + s.sentSize + _ - s.firstByteSeq ≤ rWnd
  rw [add_assoc, add_sub_self, BitVec.le_def, BitVec.toNat_add]
  rw [BitVec.toNat_sub_of_le (BitVec.le_of_lt hwindow)] at hmin
  have hlt := BitVec.lt_def.mp hwindow
  rw [Nat.mod_eq_of_lt (by omega)]
  omega

theorem rule3Choice_of_not_recovery : rule3Choice s false = none := by
  unfold rule3Choice
  rw [saved_of_not fun h => Bool.false_ne_true h.2]
  rfl

theorem rule3Choice_of_nil (hfilter : s.sentList.filter TcpTxItem.eligible = []) :
    rule3Choice s isRecovery = none := by
  unfold rule3Choice
  rw [hfilter]
  rfl

/-- The start of an eligible segment, of the lowest one unless it is `0` and another follows. -/
theorem rule3Choice_of_cons (hs : Layout s) {first : TcpTxItem} {others : List TcpTxItem}
    (hfilter : s.sentList.filter TcpTxItem.eligible = first :: others) :
    ∃ item ∈ s.sentList, rule3Choice s true = some (item.startSeq, item.startSeq + s.segmentSize) ∧
      (item.startSeq = first.startSeq ↔ first.startSeq.value ≠ 0 ∨ others = []) := by
  obtain ⟨start, hmem, hsaved⟩ := exists_saved first.startSeq (others.map TcpTxItem.startSeq)
  have hfirst : saved true (⟨0⟩, false)
      (first.startSeq :: others.map TcpTxItem.startSeq) = (start, true) := hsaved
  obtain ⟨item, hitem, rfl⟩ := mem_map.mp
    (show start ∈ (first :: others).map TcpTxItem.startSeq from hmem)
  have hpairwise := (pairwise_startSeq hs.placed hs.nonempty_sent hs.length_sent_lt).filter
    TcpTxItem.eligible
  rw [hfilter] at hpairwise
  have hne : ∀ start ∈ others.map TcpTxItem.startSeq, start ≠ first.startSeq :=
    forall_mem_map.mpr (pairwise_cons.mp hpairwise).1
  have hiff := saved_eq_first_iff hne
  rw [hfirst, Prod.mk.injEq, and_iff_left rfl, map_eq_nil_iff] at hiff
  refine ⟨item, mem_of_mem_filter (hfilter ▸ hitem), ?_, hiff⟩
  unfold rule3Choice
  rw [hfilter, map_cons, hfirst]
  rfl

theorem rule3_right_iff (hs : Layout s) : (if isRecovery then
      match s.sentList.find? TcpTxItem.eligible with
      | some item => StartsAt item.startSeq (rule3Choice s isRecovery)
      | none => rule3Choice s isRecovery = none
    else rule3Choice s isRecovery = none) ↔ (isRecovery → LowestKept s) := by
  cases isRecovery with
  | false => exact ⟨fun _ h => absurd h Bool.false_ne_true, fun _ => rule3Choice_of_not_recovery⟩
  | true =>
    rw [if_pos rfl, forall_prop_of_true rfl, ← head?_filter]
    cases hfilter : s.sentList.filter TcpTxItem.eligible with
    | nil =>
      refine ⟨fun _ item others hcons => ?_, fun _ => rule3Choice_of_nil hfilter⟩
      rw [hfilter] at hcons
      cases hcons
    | cons first others =>
      obtain ⟨item, -, hchoice, hiff⟩ := rule3Choice_of_cons hs hfilter
      show StartsAt first.startSeq (rule3Choice s true) ↔ _
      rw [hchoice, startsAt_some, hiff]
      constructor
      · intro hkept item' others' hcons
        rw [hfilter] at hcons
        cases hcons
        exact hkept
      · intro hkept
        exact hkept first others hfilter

theorem not_startsUnsent_rule3Choice (hs : Layout s) :
    ¬StartsUnsent s rWnd (rule3Choice s isRecovery) := by
  rintro ⟨high, hsome, -⟩
  cases isRecovery with
  | false =>
    rw [rule3Choice_of_not_recovery] at hsome
    cases hsome
  | true =>
    cases hfilter : s.sentList.filter TcpTxItem.eligible with
    | nil =>
      rw [rule3Choice_of_nil hfilter] at hsome
      cases hsome
    | cons first others =>
      obtain ⟨item, hitem, hchoice, -⟩ := rule3Choice_of_cons hs hfilter
      rw [hchoice] at hsome
      have hstart : item.startSeq = s.unsent := congrArg Prod.fst (Option.some.inj hsome)
      refine startSeq_ne_of_placed hs.placed hs.nonempty_sent hs.length_sent_lt item hitem ?_
      rw [hstart, unsent, hs.sentSize_eq]

theorem rule3Choice_eq_none_iff (hs : Layout s) : rule3Choice s isRecovery = none ↔
      (isRecovery → ∀ item ∈ s.sentList, item.eligible = false) := by
  cases isRecovery with
  | false => exact ⟨fun _ h => absurd h Bool.false_ne_true, fun _ => rule3Choice_of_not_recovery⟩
  | true =>
    rw [forall_prop_of_true rfl]
    cases hfilter : s.sentList.filter TcpTxItem.eligible with
    | nil =>
      refine ⟨fun _ item hitem => ?_, fun _ => rule3Choice_of_nil hfilter⟩
      exact Bool.eq_false_iff.mpr (filter_eq_nil_iff.mp hfilter item hitem)
    | cons first others =>
      obtain ⟨item, -, hchoice, -⟩ := rule3Choice_of_cons hs hfilter
      rw [hchoice]
      refine ⟨fun h => (nomatch h), fun h => ?_⟩
      have hfirst := mem_filter.mp (hfilter ▸ mem_cons_self :
        first ∈ s.sentList.filter TcpTxItem.eligible)
      rw [h first hfirst.1] at hfirst
      exact absurd hfirst.2 Bool.false_ne_true

/-- The rules are followed in the states that are safe, and only there. -/
theorem Layout.nextSeg_right (hs : Layout s) :
    NextSegRight s rWnd isRecovery (s.nextSeg rWnd isRecovery) ↔ NextSegSafe s rWnd isRecovery := by
  unfold NextSegRight NextSegSafe
  cases hfind : s.sentList.find? TcpTxItem.lostEligible with
  | some item =>
    rw [nextSeg_lost hs hfind]
    exact ⟨fun _ => .inl ⟨item, mem_of_find?_eq_some hfind, find?_some hfind⟩, fun _ => ⟨_, rfl⟩⟩
  | none =>
    have hnone := find?_eq_none.mp hfind
    have hlost : ¬∃ item ∈ s.sentList, item.lostEligible = true := fun ⟨item, hitem, h⟩ =>
      hnone item hitem h
    have hseen := sizeFromSequence_unsent hs
    rw [nextSeg_none hs hnone, or_iff_right hlost]
    dsimp only
    by_cases happ : s.appList = []
    · rw [if_neg (not_not_intro happ), if_neg fun h => (hseen.mp h).1 happ, rule3_right_iff hs]
      exact ⟨fun h => .inl ⟨happ, h⟩, fun h => h.elim And.right fun h => absurd happ h.1⟩
    · rw [if_pos happ, or_iff_right fun h => happ h.1, and_iff_right happ]
      by_cases hge : s.tailSequence.ge s.unsent = true
      · rw [if_pos (hseen.mpr ⟨happ, hge⟩)]
        refine ⟨fun _ => .inl hge, fun _ => ?_⟩
        by_cases hwindow : s.sentSize < rWnd
        · rw [if_pos hwindow, if_pos hwindow]
          exact startsUnsent_minimum hwindow
        · rw [if_neg hwindow, if_neg hwindow]
      · rw [if_neg fun h => hge (hseen.mp h).2, or_iff_right hge]
        by_cases hwindow : s.sentSize < rWnd
        · rw [if_pos hwindow]
          exact ⟨fun h => absurd h (not_startsUnsent_rule3Choice hs), fun h => absurd hwindow h.1⟩
        · rw [if_neg hwindow, and_iff_right hwindow]
          exact rule3Choice_eq_none_iff hs

end Choice

/-! ## 4. Runs -/

section Runs

variable {n maxBuffer dupAckThresh segmentSize : BitVec 32} {sackEnabled : Bool}

/-- In every state of a run. -/
theorem nextSeg_right_iff {operations : List Operation} {s : TcpTxBuffer}
    (h : FallibleRun TcpTxBuffer.step (fun _ _ => True)
      (initial n maxBuffer dupAckThresh segmentSize sackEnabled) operations s)
    (rWnd : BitVec 32) (isRecovery : Bool) :
    NextSegRight s rWnd isRecovery (s.nextSeg rWnd isRecovery) ↔
      NextSegSafe s rWnd isRecovery := by
  have hs : Layout s := h.invariant Layout (fun _ _ _ hs _ hstep => hs.step hstep)
    (layout_initial n maxBuffer dupAckThresh segmentSize sackEnabled)
  exact hs.nextSeg_right

end Runs

/-- Two segments of one byte are sent, the first of them has the number `0`. -/
def sendTwo : List Operation :=
  [.add ⟨[0, 1], by decide⟩, .copyFromSequence 1 ⟨0⟩ 0, .copyFromSequence 1 ⟨1⟩ 0]

/-- Out of recovery there is nothing to send. -/
theorem nextSeg_right_sendTwo : ∃ s,
    sendTwo.foldlM TcpTxBuffer.step (initial 0 100 3 1 true) = .ok s ∧
      NextSegRight s 10 false (s.nextSeg 10 false) := by
  refine ⟨_, rfl, ?_⟩
  have h := nextSeg_right_iff
    (show FallibleRun TcpTxBuffer.step (fun _ _ => True) (initial 0 100 3 1 true) sendTwo _ from
      .cons trivial rfl (.cons trivial rfl (.cons trivial rfl (.nil _)))) 10 false
  exact h.mpr (.inr (.inl ⟨rfl, fun h => absurd h Bool.false_ne_true⟩))

/-- In recovery the second segment is chosen, although the first is eligible. -/
theorem nextSeg_second_segment : ∃ s,
    FallibleRun TcpTxBuffer.step (fun _ _ => True) (initial 0 100 3 1 true) sendTwo s ∧
      s.nextSeg 10 true = some (⟨1⟩, ⟨2⟩) ∧ ¬NextSegRight s 10 true (s.nextSeg 10 true) := by
  refine ⟨_, .cons trivial rfl (.cons trivial rfl (.cons trivial rfl (.nil _))), rfl, ?_⟩
  show ¬StartsAt ⟨0⟩ (some (⟨1⟩, ⟨2⟩))
  rw [startsAt_some]
  decide

end MoeJit.Tcp
