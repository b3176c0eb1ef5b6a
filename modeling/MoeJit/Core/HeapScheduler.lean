import MoeJit.Core.Scheduler
import MoeJit.Lib.BinaryHeap

/-!
# The heap scheduler

`HeapScheduler` is a binary heap in a vector whose first item is wasted. Inserting and taking the
next event keep it a heap. `Remove` puts the last event in the place of the one that is removed and
moves it down, never up: the last event comes from another subtree and can be less than its new
parent (`removed_below_greater`). As long as it is not (`RemoveSafe`) the heap does what the map
does (`heap_of_run`).
-/

namespace MoeJit.Scheduler

open List

/-! ## 1. Model -/

abbrev HeapScheduler := Array Event

namespace HeapScheduler

/-- The item that is wasted, and what a place outside the vector is read as. -/
def empty : Event := ⟨0, ⟨0, 0, 0⟩⟩

def initial : HeapScheduler := #[empty]

def parent (id : Nat) : Nat := id / 2

def leftChild (id : Nat) : Nat := id * 2

def rightChild (id : Nat) : Nat := id * 2 + 1

def root : Nat := 1

section Model

variable (heap : HeapScheduler)

def last : Nat := heap.size - 1

def isBottom (id : Nat) : Bool := heap.size ≤ id

def item (id : Nat) : Event := heap.getD id empty

def exch (a b : Nat) : HeapScheduler := heap.swapIfInBounds a b

def isLessStrictly (a b : Nat) : Bool := (heap.item a).key.lt (heap.item b).key

def smallest (a b : Nat) : Nat := if heap.isLessStrictly a b then a else b

def isEmpty : Bool := heap.size = 1

end Model

/-- The rounds are counted down. -/
def bottomUp : Nat → Nat → HeapScheduler → HeapScheduler
  | 0, _, heap => heap
  | rounds + 1, index, heap =>
    if index ≠ root && heap.isLessStrictly index (parent index) then
      bottomUp rounds (parent index) (heap.exch index (parent index))
    else heap

/-- The rounds are counted down. -/
def topDown : Nat → Nat → HeapScheduler → HeapScheduler
  | 0, _, heap => heap
  | rounds + 1, index, heap =>
    if heap.isBottom (rightChild index) = false then
      let tmp := heap.smallest (leftChild index) (rightChild index)
      if heap.isLessStrictly index tmp then heap else topDown rounds tmp (heap.exch index tmp)
    else if heap.isBottom index then heap
    else if heap.isBottom (leftChild index) then heap
    else if heap.isLessStrictly index (leftChild index) then heap
    else heap.exch index (leftChild index)

def insert (heap : HeapScheduler) (ev : Event) : HeapScheduler :=
  let heap : HeapScheduler := heap.push ev
  bottomUp heap.last heap.last heap

def peekNext (heap : HeapScheduler) : Except Failure Event :=
  if heap.isEmpty then .error .invalid else .ok (heap.item root)

/-- The item takes the place of the last one, which is dropped. -/
def removeAt (heap : HeapScheduler) (id : Nat) : HeapScheduler :=
  let heap : HeapScheduler := (heap.exch id heap.last).pop
  topDown heap.size id heap

def removeNext (heap : HeapScheduler) : Except Failure (HeapScheduler × Event) :=
  if heap.isEmpty then .error .invalid else .ok (heap.removeAt root, heap.item root)

/-- The first place with the uid. -/
def place (heap : HeapScheduler) (uid : BitVec 32) : Option Nat :=
  (List.range' 1 heap.last).find? fun i => uid = (heap.item i).key.uid

def remove (heap : HeapScheduler) (ev : Event) : Except Failure HeapScheduler :=
  match heap.place ev.key.uid with
  | none => .error .invalid
  | some i => if (heap.item i).impl = ev.impl then .ok (heap.removeAt i) else .error .invalid

def perform (heap : HeapScheduler) : Operation → Except Failure (HeapScheduler × Result)
  | .insert ev => .ok (heap.insert ev, .nothing)
  | .isEmpty => .ok (heap, .flag heap.isEmpty)
  | .peekNext => heap.peekNext.map fun ev => (heap, .event ev)
  | .removeNext => heap.removeNext.map fun result => (result.1, .event result.2)
  | .remove ev => (heap.remove ev).map fun heap => (heap, .nothing)

/-! ## 2. Statement -/

/-- The events in the heap. -/
def contents (heap : HeapScheduler) : List Event := heap.toList.tail

/-- No event is less than its parent. -/
def InOrder (heap : HeapScheduler) : Prop :=
  ∀ i, 2 ≤ i → i ≤ heap.last → heap.isLessStrictly i (parent i) = false

/-- The last event is not less than the parent of the one that is removed, unless that one is the
root or the last event itself. -/
def RemoveSafe (heap : HeapScheduler) : Operation → Prop
  | .remove ev => ∀ i ∈ heap.place ev.key.uid,
    i = root ∨ i = heap.last ∨ heap.isLessStrictly heap.last (parent i) = false
  | _ => True

instance decidableRemoveSafe (heap : HeapScheduler) : ∀ operation, Decidable (RemoveSafe heap operation)
  | .remove ev => inferInstanceAs (Decidable (∀ i ∈ heap.place ev.key.uid,
    i = root ∨ i = heap.last ∨ heap.isLessStrictly heap.last (parent i) = false))
  | .insert _ | .isEmpty | .peekNext | .removeNext => isTrue trivial

/-! ## 3. Exchanges -/

/-- The keys at the places of the heap. -/
def rankAt (heap : HeapScheduler) (i : Nat) : Nat := (heap.item i).key.rank

section Exchanges

variable {heap heap' : HeapScheduler} {a b i : Nat}

theorem isLessStrictly_iff : heap.isLessStrictly a b = true ↔ heap.rankAt a < heap.rankAt b :=
  EventKey.lt_iff _ _

theorem isLessStrictly_false : heap.isLessStrictly a b = false ↔ heap.rankAt b ≤ heap.rankAt a := by
  rw [← Bool.not_eq_true, isLessStrictly_iff, not_lt]

theorem inOrder_iff : heap.InOrder ↔ IsHeap heap.rankAt heap.last :=
  forall₃_congr fun _ _ _ => isLessStrictly_false

theorem item_of_lt (h : i < heap.size) : heap.item i = heap[i] := dif_pos h

theorem item_of_le (h : heap.size ≤ i) : heap.item i = empty := dif_neg (not_lt.mpr h)

theorem item_exch (ha : a < heap.size) (hb : b < heap.size) (k : Nat) : (heap.exch a b).item k =
      if k = a then heap.item b else if k = b then heap.item a else heap.item k := by
  have hsize : (heap.exch a b).size = heap.size := Array.size_swapIfInBounds
  cases Nat.decLt k heap.size with
  | isTrue hk =>
    rw [item_of_lt (hsize.symm ▸ hk), item_of_lt ha, item_of_lt hb, item_of_lt hk]
    unfold exch
    rw [Array.getElem_swapIfInBounds]
    simp only [ha, hb, and_true]
    rfl
  | isFalse hk =>
    have hle := not_lt.mp hk
    rw [item_of_le (hsize.symm ▸ hle), item_of_le hle, if_neg (by omega), if_neg (by omega)]

theorem rankAt_exch (ha : a < heap.size) (hb : b < heap.size) :
    (heap.exch a b).rankAt = exchanged heap.rankAt a b := by
  funext k
  unfold rankAt exchanged
  rw [item_exch ha hb]
  split
  · rfl
  · split
    · rfl
    · rfl

theorem toList_eq (h : 0 < heap.size) : heap.toList = heap.item 0 :: heap.contents := by
  obtain ⟨list⟩ := heap
  cases list with
  | nil => cases h
  | cons => rfl

/-- The same events in other places. -/
structure Rearranged (heap heap' : HeapScheduler) : Prop where
  size : heap'.size = heap.size
  perm : heap'.contents.Perm heap.contents

theorem Rearranged.refl (heap : HeapScheduler) : Rearranged heap heap := ⟨rfl, .refl _⟩

theorem Rearranged.trans {heap'' : HeapScheduler} (h : Rearranged heap heap')
    (h' : Rearranged heap' heap'') : Rearranged heap heap'' :=
  ⟨h'.size.trans h.size, h'.perm.trans h.perm⟩

theorem rearranged_exch (ha : 1 ≤ a) (halt : a < heap.size) (hb : 1 ≤ b) (hblt : b < heap.size) :
    Rearranged heap (heap.exch a b) := by
  have hperm : (heap.exch a b).toList.Perm heap.toList := by
    unfold exch
    rw [Array.swapIfInBounds_def, dif_pos halt, dif_pos hblt]
    exact (Array.swap_perm halt hblt).toList
  have hsize : (heap.exch a b).size = heap.size := Array.size_swapIfInBounds
  have hfirst : (heap.exch a b).item 0 = heap.item 0 := by
    rw [item_exch halt hblt, if_neg (by omega), if_neg (by omega)]
  rw [toList_eq (by omega), toList_eq (by omega), hfirst] at hperm
  exact ⟨hsize, hperm.cons_inv⟩

/-! ## 4. Moving an item -/

theorem bottomUp_spec {rounds : Nat} (hpos : 1 ≤ i) (hle : i ≤ heap.last) (hrounds : i ≤ rounds)
    (h : UpOrder heap.rankAt heap.last i) :
    (bottomUp rounds i heap).InOrder ∧ Rearranged heap (bottomUp rounds i heap) := by
  induction rounds generalizing i heap with
  | zero => omega
  | succ rounds ih =>
    unfold bottomUp
    have hsize : heap.last = heap.size - 1 := rfl
    split
    · next hmove =>
      obtain ⟨hroot, hless⟩ := Bool.and_eq_true_iff.mp hmove
      have hi : 2 ≤ i := by
        have hne : i ≠ 1 := of_decide_eq_true hroot
        omega
      have hparent : parent i = i / 2 := rfl
      have hexch : Rearranged heap (heap.exch i (parent i)) :=
        rearranged_exch hpos (by omega) (by omega) (by omega)
      have hlast : (heap.exch i (parent i)).last = heap.last := congrArg (· - 1) hexch.size
      have hup := h.exchange hi hle (isLessStrictly_iff.mp hless)
      rw [← hparent, ← rankAt_exch (by omega) (by omega), ← hlast] at hup
      obtain ⟨hheap, hsame⟩ := ih (by omega) (by omega) (by omega) hup
      exact ⟨hheap, hexch.trans hsame⟩
    · next hstop =>
      refine ⟨inOrder_iff.mpr (h.heap fun hi => ?_), .refl _⟩
      rw [Bool.and_eq_true, not_and] at hstop
      have hne : i ≠ root := fun heq => by
        have hroot : root = 1 := rfl
        omega
      exact isLessStrictly_false.mp (Bool.eq_false_iff.mpr (hstop (decide_eq_true hne)))

theorem rankAt_smallest_le (heap : HeapScheduler) (a b : Nat) :
    heap.rankAt (heap.smallest a b) ≤ heap.rankAt a ∧
      heap.rankAt (heap.smallest a b) ≤ heap.rankAt b := by
  unfold smallest
  split
  · next hless => exact ⟨le_refl _, le_of_lt (isLessStrictly_iff.mp hless)⟩
  · next hless =>
    exact ⟨isLessStrictly_false.mp (Bool.eq_false_iff.mpr hless), le_refl _⟩

theorem topDown_spec {rounds : Nat} (hpos : 1 ≤ i) (hrounds : heap.last < i + rounds)
    (h : DownOrder heap.rankAt heap.last i) :
    (topDown rounds i heap).InOrder ∧ Rearranged heap (topDown rounds i heap) := by
  induction rounds generalizing i heap with
  | zero =>
    exact ⟨inOrder_iff.mpr (h.heap fun c hc hchild => by omega), .refl _⟩
  | succ rounds ih =>
    unfold topDown
    have hsize : heap.last = heap.size - 1 := rfl
    have hleft : leftChild i = i * 2 := rfl
    have hright : rightChild i = i * 2 + 1 := rfl
    split
    · next hbottom =>
      have hlt : rightChild i < heap.size := Nat.lt_of_not_le (of_decide_eq_false hbottom)
      dsimp only
      obtain ⟨hl, hr⟩ := heap.rankAt_smallest_le (leftChild i) (rightChild i)
      have hchild : heap.smallest (leftChild i) (rightChild i) = leftChild i ∨
          heap.smallest (leftChild i) (rightChild i) = rightChild i := by
        unfold smallest
        split
        · exact .inl rfl
        · exact .inr rfl
      generalize heap.smallest (leftChild i) (rightChild i) = tmp at hl hr hchild
      have hmin : ∀ c, c ≤ heap.last → c / 2 = i → heap.rankAt tmp ≤ heap.rankAt c := by
        intro c hc hparent
        have hcases : c = leftChild i ∨ c = rightChild i := by omega
        cases hcases with
        | inl heq => exact heq ▸ hl
        | inr heq => exact heq ▸ hr
      split
      · next hless =>
        have hle := le_of_lt (isLessStrictly_iff.mp hless)
        exact ⟨inOrder_iff.mpr (h.heap fun c hc hparent => le_trans hle (hmin c hc hparent)),
          .refl _⟩
      · next hless =>
        have hle := isLessStrictly_false.mp (Bool.eq_false_iff.mpr hless)
        have hexch : Rearranged heap (heap.exch i tmp) :=
          rearranged_exch hpos (by omega) (by omega) (by omega)
        have hlast : (heap.exch i tmp).last = heap.last := congrArg (· - 1) hexch.size
        have hdown := h.exchange hpos (m := tmp) (by omega) (by omega) hmin hle
        rw [← rankAt_exch (by omega) (by omega), ← hlast] at hdown
        obtain ⟨hheap, hsame⟩ := ih (by omega) (by omega) hdown
        exact ⟨hheap, hexch.trans hsame⟩
    · next hbottom =>
      have hge : heap.size ≤ rightChild i := of_decide_eq_true (Bool.not_eq_false _ ▸ hbottom)
      split
      · next hend =>
        have hend : heap.size ≤ i := of_decide_eq_true hend
        exact ⟨inOrder_iff.mpr (h.heap fun c hc hparent => by omega), .refl _⟩
      · split
        · next hend =>
          have hend : heap.size ≤ leftChild i := of_decide_eq_true hend
          exact ⟨inOrder_iff.mpr (h.heap fun c hc hparent => by omega), .refl _⟩
        · next hend =>
          have hlt : leftChild i < heap.size :=
            Nat.lt_of_not_le (of_decide_eq_false (Bool.eq_false_iff.mpr hend))
          -- the left child is the last item
          have honly : ∀ c, c ≤ heap.last → c / 2 = i → c = leftChild i := by
            intro c hc hparent
            omega
          split
          · next hless =>
            have hle := le_of_lt (isLessStrictly_iff.mp hless)
            exact ⟨inOrder_iff.mpr (h.heap fun c hc hparent => honly c hc hparent ▸ hle), .refl _⟩
          · next hless =>
            have hle := isLessStrictly_false.mp (Bool.eq_false_iff.mpr hless)
            have hexch : Rearranged heap (heap.exch i (leftChild i)) :=
              rearranged_exch hpos (by omega) (by omega) hlt
            have hlast : (heap.exch i (leftChild i)).last = heap.last := congrArg (· - 1) hexch.size
            have hdown := h.exchange hpos (m := leftChild i) (by omega) (by omega)
              (fun c hc hparent => honly c hc hparent ▸ le_refl _) hle
            rw [← rankAt_exch (by omega) hlt, ← hlast] at hdown
            refine ⟨inOrder_iff.mpr (hdown.heap fun c hc hparent => ?_), hexch⟩
            omega

/-! ## 5. The operations -/

theorem toList_eq_concat (h : 0 < heap.size) :
    heap.toList = heap.pop.toList ++ [heap.item heap.last] := by
  have hne : heap.toList ≠ [] := fun hnil => by
    rw [Array.toList_eq_nil_iff.mp hnil] at h
    cases h
  have hlast : heap.item heap.last = heap.toList.getLast hne := by
    show heap.item (heap.size - 1) = _
    rw [item_of_lt (Nat.sub_lt h Nat.one_pos), getLast_eq_getElem]
    rfl
  rw [hlast, Array.toList_pop, dropLast_concat_getLast]

theorem item_push (ev : Event) (h : i < heap.size) : item (heap.push ev) i = heap.item i := by
  rw [item_of_lt h, item_of_lt (by rw [Array.size_push]; omega), Array.getElem_push_lt h]

theorem item_pop (h : i < heap.last) : item heap.pop i = heap.item i := by
  have hlast : heap.last = heap.size - 1 := rfl
  rw [item_of_lt (show i < heap.size by omega), item_of_lt (by rw [Array.size_pop]; exact h),
    Array.getElem_pop]

theorem insert_spec (ev : Event) (hsize : 0 < heap.size) (h : heap.InOrder) :
    (heap.insert ev).InOrder ∧ (heap.insert ev).contents.Perm (ev :: heap.contents) ∧
      0 < (heap.insert ev).size := by
  have hlast : heap.last = heap.size - 1 := rfl
  have hpushed : last (heap.push ev) = heap.last + 1 := by
    show (heap.push ev).size - 1 = _
    rw [Array.size_push]
    omega
  have hold : IsHeap (rankAt (heap.push ev)) heap.last := (inOrder_iff.mp h).congr fun k hk =>
    congrArg (·.key.rank) (item_push ev (by omega))
  have hup : UpOrder (rankAt (heap.push ev)) (last (heap.push ev)) (last (heap.push ev)) :=
    hpushed ▸ hold.upOrder
  obtain ⟨hheap, hsame⟩ := bottomUp_spec (by omega) (le_refl _) (le_refl _) hup
  refine ⟨hheap, hsame.perm.trans ?_, ?_⟩
  · have hne : heap.toList ≠ [] := fun hnil => by
      rw [Array.toList_eq_nil_iff.mp hnil] at hsize
      cases hsize
    show (heap.push ev).toList.tail.Perm _
    rw [Array.toList_push, tail_append_of_ne_nil hne]
    exact perm_append_singleton _ _
  · show 0 < (bottomUp _ _ _).size
    rw [hsame.size, Array.size_push]
    exact Nat.succ_pos _

theorem removeAt_spec (hpos : 1 ≤ i) (hle : i ≤ heap.last) (h : heap.InOrder)
    (hsafe : i = root ∨ i = heap.last ∨ heap.isLessStrictly heap.last (parent i) = false) :
    (heap.removeAt i).InOrder ∧ (heap.item i :: (heap.removeAt i).contents).Perm heap.contents ∧
      0 < (heap.removeAt i).size := by
  have hlast : heap.last = heap.size - 1 := rfl
  have hroot : root = 1 := rfl
  obtain ⟨n, hn⟩ : ∃ n, heap.last = n + 1 := ⟨heap.last - 1, by omega⟩
  have hexch : Rearranged heap (heap.exch i heap.last) :=
    rearranged_exch hpos (by omega) (by omega) (by omega)
  have hsize : (heap.exch i heap.last).pop.size = n + 1 := by
    rw [Array.size_pop, hexch.size]
    omega
  have hpopped : last (heap.exch i heap.last).pop = n := by
    show (heap.exch i heap.last).pop.size - 1 = n
    rw [hsize]
    rfl
  have hparent : 2 ≤ i → heap.rankAt (i / 2) ≤ heap.rankAt (n + 1) := by
    intro hi
    rw [← hn]
    rcases hsafe with heq | heq | hless
    · omega
    · rw [← heq]
      exact inOrder_iff.mp h i hi hle
    · exact isLessStrictly_false.mp hless
  have hheap : IsHeap heap.rankAt (n + 1) := hn ▸ inOrder_iff.mp h
  have hdown : DownOrder (rankAt (heap.exch i heap.last).pop) n i := by
    refine (hheap.downOrder hparent).congr fun k hk => ?_
    rw [← hn, ← rankAt_exch (by omega) (by omega)]
    refine congrArg (·.key.rank) (item_pop ?_)
    show k < (heap.exch i heap.last).size - 1
    rw [hexch.size]
    omega
  have hrounds : last (heap.exch i heap.last).pop < i + (heap.exch i heap.last).pop.size := by
    omega
  obtain ⟨hordered, hsame⟩ := topDown_spec hpos hrounds (hpopped.symm ▸ hdown)
  refine ⟨hordered, (hsame.perm.cons _).trans ?_, ?_⟩
  · have hmoved : (heap.exch i heap.last).item (heap.exch i heap.last).last = heap.item i := by
      show (heap.exch i heap.last).item ((heap.exch i heap.last).size - 1) = _
      rw [hexch.size, ← hlast, item_exch (by omega) (by omega)]
      split
      · next heq => rw [heq]
      · exact if_pos rfl
    have hne : (heap.exch i heap.last).pop.toList ≠ [] := fun hnil => by
      rw [Array.toList_eq_nil_iff.mp hnil] at hsize
      cases hsize
    have hnonempty : 0 < (heap.exch i heap.last).size := by
      rw [hexch.size]
      omega
    have hparts := toList_eq_concat hnonempty
    have hcontents : (heap.exch i heap.last).contents =
        contents (heap.exch i heap.last).pop ++ [heap.item i] := by
      show (heap.exch i heap.last).toList.tail = _
      rw [hparts, hmoved, tail_append_of_ne_nil hne]
      rfl
    exact (perm_append_singleton _ _).symm.trans (hcontents ▸ hexch.perm)
  · show 0 < (topDown _ _ _).size
    rw [hsame.size, hsize]
    exact Nat.succ_pos _

/-- What the heap is between two operations. -/
structure Inv (heap : HeapScheduler) : Prop where
  pos : 0 < heap.size
  inOrder : heap.InOrder

theorem length_contents (heap : HeapScheduler) : heap.contents.length = heap.last := length_tail

theorem isEmpty_eq (hs : Inv heap) : heap.isEmpty = heap.contents.isEmpty := by
  have hpos := hs.pos
  have hlen : heap.contents.length = heap.size - 1 := heap.length_contents
  have hiff : heap.size = 1 ↔ heap.contents = [] := by
    rw [← length_eq_zero_iff]
    omega
  unfold isEmpty
  rw [Bool.eq_iff_iff, decide_eq_true_eq, List.isEmpty_iff]
  exact hiff

theorem contents_getElem (hi : i < heap.contents.length) :
    heap.contents[i] = heap.item (i + 1) := by
  have hlen := heap.length_contents
  have hlast : heap.last = heap.size - 1 := rfl
  rw [item_of_lt (by omega)]
  exact getElem_tail hi

theorem mem_contents {ev : Event} :
    ev ∈ heap.contents ↔ ∃ i, 1 ≤ i ∧ i ≤ heap.last ∧ heap.item i = ev := by
  rw [mem_iff_getElem]
  constructor
  · rintro ⟨i, hi, heq⟩
    rw [contents_getElem hi] at heq
    rw [length_contents] at hi
    exact ⟨i + 1, Nat.le_add_left _ _, hi, heq⟩
  · rintro ⟨i, hpos, hle, heq⟩
    obtain ⟨i, rfl⟩ := Nat.exists_eq_add_of_le' hpos
    refine ⟨i, heap.length_contents ▸ hle, ?_⟩
    rw [contents_getElem]
    exact heq

theorem next_root (hs : Inv heap) (hpos : 1 ≤ heap.last) : Next heap.contents (heap.item root) := by
  refine next_iff.mpr ⟨mem_contents.mpr ⟨1, le_refl _, hpos, rfl⟩, fun e he => ?_⟩
  obtain ⟨i, hi, hle, rfl⟩ := mem_contents.mp he
  exact (inOrder_iff.mp hs.inOrder).root_le hi hle

theorem place_some {uid : BitVec 32} (h : heap.place uid = some i) :
    1 ≤ i ∧ i ≤ heap.last ∧ (heap.item i).key.uid = uid := by
  have hmem := mem_of_find?_eq_some h
  rw [mem_range'_1] at hmem
  have hfound := find?_some h
  exact ⟨hmem.1, by omega, (of_decide_eq_true hfound).symm⟩

theorem place_none {uid : BitVec 32} (h : heap.place uid = none) :
    ∀ e ∈ heap.contents, e.key.uid ≠ uid := by
  intro e he
  obtain ⟨i, hpos, hle, rfl⟩ := mem_contents.mp he
  have hnot := find?_eq_none.mp h i (mem_range'_1.mpr ⟨hpos, by omega⟩)
  exact fun huid => hnot (decide_eq_true huid.symm)

theorem serves : Serves perform contents Inv RemoveSafe := by
  constructor
  case insert =>
    intro heap ev hs _ _
    obtain ⟨hordered, hperm, hpos⟩ := insert_spec ev hs.pos hs.inOrder
    exact ⟨_, rfl, ⟨hpos, hordered⟩, hperm⟩
  case isEmpty =>
    intro heap hs
    show Except.ok (heap, Result.flag heap.isEmpty) = _
    rw [isEmpty_eq hs]
  case peekNext =>
    intro heap hs
    show (_ ∧ (heap.peekNext).map _ = _) ∨ ∃ ev, _ ∧ (heap.peekNext).map _ = _
    unfold peekNext
    split
    · next hempty =>
      rw [isEmpty_eq hs, List.isEmpty_iff] at hempty
      exact .inl ⟨hempty, rfl⟩
    · next hsome =>
      rw [isEmpty_eq hs, List.isEmpty_iff, ← length_eq_zero_iff, length_contents] at hsome
      exact .inr ⟨_, next_root hs (Nat.pos_of_ne_zero hsome), rfl⟩
  case removeNext =>
    intro heap hs
    show (_ ∧ (heap.removeNext).map _ = _) ∨ ∃ ev s', _ ∧ (heap.removeNext).map _ = _ ∧ _
    unfold removeNext
    split
    · next hempty =>
      rw [isEmpty_eq hs, List.isEmpty_iff] at hempty
      exact .inl ⟨hempty, rfl⟩
    · next hsome =>
      rw [isEmpty_eq hs, List.isEmpty_iff, ← length_eq_zero_iff, length_contents] at hsome
      have hlast := Nat.pos_of_ne_zero hsome
      obtain ⟨hordered, hperm, hpos⟩ :=
        removeAt_spec (i := root) (Nat.le_refl _) hlast hs.inOrder (.inl rfl)
      exact .inr ⟨_, _, next_root hs hlast, rfl, ⟨hpos, hordered⟩, hperm⟩
  case remove =>
    intro heap ev hs hguard hproper hmem
    show ∃ s', (heap.remove ev).map _ = _ ∧ _
    unfold remove
    split
    · next hnone => exact absurd rfl (place_none hnone ev hmem)
    · next i hplace =>
      obtain ⟨hpos, hle, huid⟩ := place_some hplace
      have heq : heap.item i = ev := hproper _ (mem_contents.mpr ⟨i, hpos, hle, rfl⟩) huid
      obtain ⟨hordered, hperm, hsize⟩ :=
        removeAt_spec hpos hle hs.inOrder (hguard i (Option.mem_def.mpr hplace))
      rw [heq] at hperm ⊢
      rw [if_pos rfl]
      exact ⟨_, rfl, ⟨hsize, hordered⟩, hperm⟩
  case remove_absent =>
    intro heap ev _ habsent
    show (heap.remove ev).map _ = _
    unfold remove
    split
    · rfl
    · next i hplace =>
      obtain ⟨hpos, hle, huid⟩ := place_some hplace
      exact absurd huid (habsent _ (mem_contents.mpr ⟨i, hpos, hle, rfl⟩))

end Exchanges

/-! ## 6. Runs -/

theorem inv_initial : Inv initial := by
  refine ⟨Nat.one_pos, fun i hi hle => ?_⟩
  have hlast : initial.last = 0 := rfl
  omega

/-- In every run in which no `Remove` puts an event below a greater one, the heap is in order and
holds what was inserted and not removed, the next event is the smallest, and the operations end as
those of the map do. -/
theorem heap_of_run (operations : List Operation) :
    (∀ heap pending, FallibleRun (trackedStep perform) (guarded RemoveSafe) (initial, []) operations
        (heap, pending) →
      heap.InOrder ∧ heap.contents.Perm pending ∧
        ∀ heap' ev, heap.removeNext = .ok (heap', ev) → Next pending ev) ∧
    (Throughout (tracked perform) (guarded RemoveSafe) (initial, []) operations →
      List.Forall₂ (Alike fun x y => x.2 = y.2) (outcomes (tracked perform) (initial, []) operations)
        (outcomes MapScheduler.perform [] operations)) := by
  constructor
  · intro heap pending hrun
    obtain ⟨list, hinv, hcontents, -, -⟩ := serves.run inv_initial rfl hrun
    refine ⟨hinv.inOrder, hcontents, fun heap' ev hnext => ?_⟩
    rcases serves.removeNext hinv with ⟨-, herror⟩ | ⟨ev', heap₁, hmin, hok, -⟩
    · have hperform : perform heap .removeNext = .ok (heap', .event ev) := by
        show (heap.removeNext).map _ = _
        rw [hnext]
        rfl
      rw [herror] at hperform
      cases hperform
    · have hperform : perform heap .removeNext = .ok (heap', .event ev) := by
        show (heap.removeNext).map _ = _
        rw [hnext]
        rfl
      rw [hok] at hperform
      cases hperform
      exact hmin.perm hcontents
  · intro hrun
    exact (serves.outcomes inv_initial rfl operations hrun).imp fun x y hxy =>
      hxy.mono fun a b hab => hab.2.symm

/-- An event with a timestamp and a uid. -/
def eventAt (ts : BitVec 64) (uid : BitVec 32) : Event := ⟨uid.toNat, ⟨ts, uid, 0⟩⟩

def insertThree : List Operation :=
  [.insert (eventAt 3 5), .insert (eventAt 1 6), .insert (eventAt 2 7), .remove (eventAt 3 5)]

theorem heap_of_run_three : InOrder #[empty, eventAt 1 6, eventAt 2 7] ∧
    (contents #[empty, eventAt 1 6, eventAt 2 7]).Perm [eventAt 2 7, eventAt 1 6] ∧
    List.Forall₂ (Alike fun x y => x.2 = y.2)
      (outcomes (tracked perform) (initial, []) insertThree)
      (outcomes MapScheduler.perform [] insertThree) := by
  have hrun : FallibleRun (trackedStep perform) (guarded RemoveSafe) (initial, []) insertThree
      (#[empty, eventAt 1 6, eventAt 2 7], [eventAt 2 7, eventAt 1 6]) :=
    .cons (by decide) rfl (.cons (by decide) rfl (.cons (by decide) rfl (.cons (by decide) rfl
      (.nil _))))
  obtain ⟨hordered, hperm, -⟩ := (heap_of_run insertThree).1 _ _ hrun
  exact ⟨hordered, hperm, (heap_of_run insertThree).2 (by decide)⟩

/-- Seven events, and the fourth of them, which is in the left branch, is removed. -/
def removeFourth : List Operation :=
  [.insert (eventAt 1 4), .insert (eventAt 10 5), .insert (eventAt 2 6), .insert (eventAt 11 7),
    .insert (eventAt 12 8), .insert (eventAt 4 9), .insert (eventAt 3 10), .remove (eventAt 11 7)]

def takeTwo : List Operation := [.removeNext, .removeNext]

/-- The event at time 3 comes below the one at time 10 and is overtaken by the one at time 4. -/
theorem removed_below_greater : ∃ heap heap' heap'' : HeapScheduler, ∃ pending pending',
    Throughout (tracked perform) (fun s operation => Proper s.2 operation) (initial, [])
      (removeFourth ++ takeTwo) ∧
    removeFourth.foldlM (trackedStep perform) (initial, []) = .ok (heap, pending) ∧
    ¬heap.InOrder ∧ takeTwo.foldlM (trackedStep perform) (heap, pending) = .ok (heap', pending') ∧
    heap'.removeNext = .ok (heap'', eventAt 4 9) ∧ eventAt 3 10 ∈ pending' := by
  refine ⟨#[empty, eventAt 1 4, eventAt 10 5, eventAt 2 6, eventAt 3 10, eventAt 12 8, eventAt 4 9],
    #[empty, eventAt 4 9, eventAt 10 5, eventAt 12 8, eventAt 3 10],
    #[empty, eventAt 3 10, eventAt 10 5, eventAt 12 8],
    [eventAt 3 10, eventAt 4 9, eventAt 12 8, eventAt 2 6, eventAt 10 5, eventAt 1 4],
    [eventAt 3 10, eventAt 4 9, eventAt 12 8, eventAt 10 5], by decide, rfl, fun hordered => ?_,
    rfl, rfl, by decide⟩
  exact absurd (hordered 4 (by decide) (by decide)) (by decide)

end HeapScheduler

end MoeJit.Scheduler
