import MoeJit.Internet.TcpTxBuffer
import MoeJit.Lib.FallibleRun
import Mathlib.Tactic.LinearCombination

/-!
# Splitting and merging segments

What `GetPacketFromList` does to a list: it splits items and merges neighbours, and ends at the
item that begins at the number asked for (`getPacketFromList_ok`). `Reshape` is a series of such
edits; it keeps the bytes, the places of the items and the sums of the sizes by flag.
-/

namespace MoeJit.Tcp

open List
open BitVec (ofNat ofNat_add toNat_ofNat toNat_sub)
open SequenceNumber32 (add_sub add_sub_self add_zero gt_iff le lt sub_def value_add)

open Bytes (Byte)

/-! ## 1. Bytes and places -/

def bytesOf (items : List TcpTxItem) : List Byte := items.flatMap TcpTxItem.packet

/-- The number of bytes of the items with a flag. -/
def lengthOf (flag : TcpTxItem → Bool) (items : List TcpTxItem) : Nat :=
  (items.map fun item => if flag item then item.packet.length else 0).sum

/-- The items begin one after the other. -/
def Placed : SequenceNumber32 → List TcpTxItem → Prop
  | _, [] => True
  | start, item :: rest => item.startSeq = start ∧ Placed (start + item.size) rest

def Nonempty (items : List TcpTxItem) : Prop := ∀ item ∈ items, 0 < item.packet.length

section Lists

variable {flag : TcpTxItem → Bool} {item : TcpTxItem} {items items' : List TcpTxItem}
  {start : SequenceNumber32}

@[simp] theorem bytesOf_nil : bytesOf [] = [] := rfl

@[simp] theorem bytesOf_cons : bytesOf (item :: items) = item.packet ++ bytesOf items :=
  flatMap_cons

@[simp] theorem bytesOf_append : bytesOf (items ++ items') = bytesOf items ++ bytesOf items' :=
  flatMap_append

@[simp] theorem lengthOf_nil : lengthOf flag [] = 0 := rfl

@[simp] theorem lengthOf_cons :
    lengthOf flag (item :: items) = (if flag item then item.packet.length else 0) +
      lengthOf flag items := sum_cons

@[simp] theorem lengthOf_append :
    lengthOf flag (items ++ items') = lengthOf flag items + lengthOf flag items' := by
  rw [lengthOf, map_append, sum_append]
  rfl

theorem lengthOf_true : lengthOf (fun _ => true) items = (bytesOf items).length := by
  induction items with
  | nil => rfl
  | cons item items ih =>
    rw [lengthOf_cons, if_pos rfl, ih, bytesOf_cons, length_append]

theorem lengthOf_false (h : ∀ item ∈ items, flag item = false) : lengthOf flag items = 0 := by
  induction items with
  | nil => rfl
  | cons item items ih =>
    rw [lengthOf_cons, h item mem_cons_self, ih fun item hitem => h item (mem_cons_of_mem _ hitem)]
    rfl

/-- Flags that exclude each other. -/
theorem lengthOf_add_le {flag' : TcpTxItem → Bool}
    (h : ∀ item ∈ items, ¬(flag item = true ∧ flag' item = true)) :
    lengthOf flag items + lengthOf flag' items ≤ (bytesOf items).length := by
  induction items with
  | nil => exact le_refl 0
  | cons item items ih =>
    have hrest := ih fun item hitem => h item (mem_cons_of_mem _ hitem)
    have hitem := h item mem_cons_self
    rw [lengthOf_cons, lengthOf_cons, bytesOf_cons, length_append]
    split <;> split
    · next h1 h2 => exact absurd ⟨h1, h2⟩ hitem
    all_goals omega

theorem lengthOf_le : lengthOf flag items ≤ (bytesOf items).length := by
  have h : lengthOf flag items + lengthOf (fun _ => false) items ≤ (bytesOf items).length :=
    lengthOf_add_le fun _ _ hflags => Bool.false_ne_true hflags.2
  exact Nat.le_of_add_right_le h

@[simp] theorem sizeOf_nil : sizeOf flag [] = 0 := rfl

@[simp] theorem sizeOf_cons :
    sizeOf flag (item :: items) = (if flag item then item.size else 0) + sizeOf flag items :=
  sum_cons

theorem sizeOf_eq : sizeOf flag items = ofNat 32 (lengthOf flag items) := by
  induction items with
  | nil => rfl
  | cons item items ih =>
    rw [sizeOf_cons, lengthOf_cons, ih, ofNat_add]
    split <;> rfl

@[simp] theorem sizeOf_append :
    sizeOf flag (items ++ items') = sizeOf flag items + sizeOf flag items' := by
  rw [sizeOf_eq, lengthOf_append, ofNat_add, sizeOf_eq, sizeOf_eq]

theorem add_size_add (n : Nat) :
    start + item.size + ofNat 32 n = start + ofNat 32 (item.packet.length + n) := by
  rw [SequenceNumber32.add_assoc, ofNat_add]
  rfl

theorem placed_append : Placed start (items ++ items') ↔
    Placed start items ∧ Placed (start + ofNat 32 (bytesOf items).length) items' := by
  induction items generalizing start with
  | nil =>
    show Placed start items' ↔ True ∧ Placed (start + 0#32) items'
    rw [add_zero, true_and]
  | cons item items ih =>
    show item.startSeq = start ∧ Placed (start + item.size) (items ++ items') ↔
      (item.startSeq = start ∧ Placed (start + item.size) items) ∧ _
    rw [ih, add_size_add, bytesOf_cons, length_append, and_assoc]

theorem nonempty_append : Nonempty (items ++ items') ↔ Nonempty items ∧ Nonempty items' :=
  forall_mem_append

theorem nonempty_cons : Nonempty (item :: items) ↔ 0 < item.packet.length ∧ Nonempty items :=
  forall_mem_cons

end Lists

/-! ## 2. Edits -/

/-- Splits and merges, with the count of retransmitted bytes. -/
inductive Reshape : List TcpTxItem → BitVec 32 → List TcpTxItem → BitVec 32 → Prop
  | refl (items : List TcpTxItem) (retrans : BitVec 32) : Reshape items retrans items retrans
  | split {before after items : List TcpTxItem} {item : TcpTxItem} {retrans retrans' : BitVec 32}
      (node : Nat) {size : BitVec 32} (hpos : 0 < size.toNat)
      (hlt : size.toNat < item.packet.length)
      (rest : Reshape (before ++ (splitItems item node size).1 :: (splitItems item node size).2 ::
        after) retrans items retrans') : Reshape (before ++ item :: after) retrans items retrans'
  | merge {before after items : List TcpTxItem} {t1 t2 merged : TcpTxItem}
      {retrans retrans₁ retrans' : BitVec 32}
      (hmerge : mergeItems t1 t2 retrans = .ok (merged, retrans₁))
      (rest : Reshape (before ++ merged :: after) retrans₁ items retrans') :
      Reshape (before ++ t1 :: t2 :: after) retrans items retrans'

section Parts

variable {item : TcpTxItem} {node : Nat} {size : BitVec 32}

theorem length_fst_splitItems (h : size.toNat < item.packet.length) :
    (splitItems item node size).1.packet.length = size.toNat := by
  show (item.packet.take size.toNat).length = _
  rw [length_take, min_eq_left (le_of_lt h)]

theorem length_snd_splitItems :
    (splitItems item node size).2.packet.length = item.packet.length - size.toNat :=
  length_drop

theorem size_fst_splitItems (h : size.toNat < item.packet.length) :
    (splitItems item node size).1.size = size := by
  rw [TcpTxItem.size, length_fst_splitItems h, BitVec.ofNat_toNat, BitVec.setWidth_eq]

theorem size_splitItems (node : Nat) (h : size.toNat < item.packet.length) :
    (splitItems item node size).1.size + (splitItems item node size).2.size = item.size := by
  rw [TcpTxItem.size, TcpTxItem.size, ← ofNat_add, length_fst_splitItems h,
    length_snd_splitItems, Nat.add_sub_cancel' (le_of_lt h)]
  rfl

/-- Merged items have the flags that do not exclude the merge, and no retransmitted byte is
counted that is not flagged. -/
theorem mergeItems_ok {t1 t2 merged : TcpTxItem} {retrans retrans' : BitVec 32}
    (h : mergeItems t1 t2 retrans = .ok (merged, retrans')) :
    merged.packet = t1.packet ++ t2.packet ∧ merged.startSeq = t1.startSeq ∧
      merged.node = t1.node ∧ (t1.sacked = t2.sacked ∧ merged.sacked = t1.sacked) ∧
      (t1.lost = t2.lost ∧ merged.lost = t1.lost) ∧
      merged.retrans = (t1.retrans && t2.retrans) ∧
      retrans' + (if t1.retrans then t1.size else 0) + (if t2.retrans then t2.size else 0) =
        retrans + if merged.retrans then t1.size + t2.size else 0 := by
  unfold mergeItems at h
  split at h
  · cases h
  · next hsacked =>
    split at h
    · cases h
    · next hlost =>
      have hsacked' := not_not.mp hsacked
      have hlost' := not_not.mp hlost
      cases h1 : t1.retrans <;> cases h2 : t2.retrans <;> rw [h1, h2] at h <;> cases h <;>
        exact ⟨rfl, rfl, rfl, ⟨hsacked', rfl⟩, ⟨hlost', rfl⟩, by simp, by simp [add_assoc]⟩

end Parts

namespace Reshape

variable {items items' : List TcpTxItem} {retrans retrans' : BitVec 32}

theorem bytesOf_eq (h : Reshape items retrans items' retrans') : bytesOf items' = bytesOf items := by
  induction h with
  | refl => rfl
  | @split before after items item r r' node size hpos hlt _ ih =>
    rw [ih, bytesOf_append, bytesOf_append, bytesOf_cons, bytesOf_cons, bytesOf_cons,
      ← append_assoc _ _ (bytesOf after)]
    show _ ++ (item.packet.take size.toNat ++ item.packet.drop size.toNat ++ _) = _
    rw [take_append_drop]
  | merge hmerge _ ih =>
    obtain ⟨hpkt, -⟩ := mergeItems_ok hmerge
    rw [ih, bytesOf_append, bytesOf_append, bytesOf_cons, bytesOf_cons, bytesOf_cons, hpkt,
      append_assoc]

/-- What the parts of an item and a merged item have from the items they are made of. -/
theorem forall_mem {P : TcpTxItem → Prop}
    (hsplit : ∀ (item : TcpTxItem) (node : Nat) (size : BitVec 32), 0 < size.toNat →
      size.toNat < item.packet.length → P item →
      P (splitItems item node size).1 ∧ P (splitItems item node size).2)
    (hmerge : ∀ (t1 t2 merged : TcpTxItem) (r r' : BitVec 32),
      mergeItems t1 t2 r = .ok (merged, r') → P t1 → P t2 → P merged)
    (h : Reshape items retrans items' retrans') (hitems : ∀ item ∈ items, P item) :
    ∀ item ∈ items', P item := by
  induction h with
  | refl => exact hitems
  | split node hpos hlt _ ih =>
    obtain ⟨hbefore, hafter⟩ := forall_mem_append.mp hitems
    obtain ⟨hitem, hafter⟩ := forall_mem_cons.mp hafter
    obtain ⟨hfst, hsnd⟩ := hsplit _ node _ hpos hlt hitem
    exact ih (forall_mem_append.mpr
      ⟨hbefore, forall_mem_cons.mpr ⟨hfst, forall_mem_cons.mpr ⟨hsnd, hafter⟩⟩⟩)
  | merge hmerged _ ih =>
    obtain ⟨hbefore, hafter⟩ := forall_mem_append.mp hitems
    obtain ⟨h1, hafter⟩ := forall_mem_cons.mp hafter
    obtain ⟨h2, hafter⟩ := forall_mem_cons.mp hafter
    exact ih (forall_mem_append.mpr
      ⟨hbefore, forall_mem_cons.mpr ⟨hmerge _ _ _ _ _ hmerged h1 h2, hafter⟩⟩)

section

variable (h : Reshape items retrans items' retrans')
include h

theorem nonempty (hitems : Nonempty items) : Nonempty items' := by
  refine h.forall_mem (fun item node size hpos hlt _ => ?_) (fun t1 t2 merged r r' hmerge h1 _ => ?_)
    hitems
  · rw [length_fst_splitItems hlt, length_snd_splitItems]
    exact ⟨hpos, Nat.sub_pos_of_lt hlt⟩
  · rw [(mergeItems_ok hmerge).1, length_append]
    exact Nat.add_pos_left h1 _

/-- A condition on the flags `sacked` and `lost`. -/
theorem flags {P : Bool → Bool → Prop} (hitems : ∀ item ∈ items, P item.sacked item.lost) :
    ∀ item ∈ items', P item.sacked item.lost := by
  refine h.forall_mem (fun item node size _ _ hitem => ⟨hitem, hitem⟩) ?_ hitems
  intro t1 t2 merged r r' hmerge h1 _
  obtain ⟨-, -, -, ⟨-, hsacked⟩, ⟨-, hlost⟩, -⟩ := mergeItems_ok hmerge
  rw [hsacked, hlost]
  exact h1

theorem not_retrans (hitems : ∀ item ∈ items, item.retrans = false) :
    ∀ item ∈ items', item.retrans = false := by
  refine h.forall_mem (fun item node size _ _ hitem => ⟨hitem, hitem⟩) ?_ hitems
  intro t1 t2 merged r r' hmerge h1 _
  obtain ⟨-, -, -, -, -, hretrans, -⟩ := mergeItems_ok hmerge
  rw [hretrans, h1]
  rfl

theorem placed {start : SequenceNumber32} (hitems : Placed start items) : Placed start items' := by
  induction h with
  | refl => exact hitems
  | @split before after items item r r' node size hpos hlt _ ih =>
    obtain ⟨hbefore, hitem, hafter⟩ := placed_append.mp hitems
    refine ih (placed_append.mpr ⟨hbefore, hitem, ?_, ?_⟩)
    · rw [size_fst_splitItems hlt, ← hitem]
      rfl
    · rw [SequenceNumber32.add_assoc, size_splitItems node hlt]
      exact hafter
  | @merge before after items t1 t2 merged r r₁ r' hmerge _ ih =>
    obtain ⟨hpkt, hstart, -⟩ := mergeItems_ok hmerge
    obtain ⟨hbefore, h1, -, hafter⟩ := placed_append.mp hitems
    refine ih (placed_append.mpr ⟨hbefore, hstart.trans h1, ?_⟩)
    have hsize : merged.size = t1.size + t2.size := by
      rw [TcpTxItem.size, hpkt, length_append, ofNat_add]
      rfl
    rw [hsize, ← SequenceNumber32.add_assoc]
    exact hafter

end

/-- The sizes of the items with a flag that both parts have and that merged items share. -/
theorem sizeOf_eq {flag : TcpTxItem → Bool}
    (hsplit : ∀ (item : TcpTxItem) (node : Nat) (size : BitVec 32),
      flag (splitItems item node size).1 = flag item ∧ flag (splitItems item node size).2 = flag item)
    (hmerge : ∀ (t1 t2 merged : TcpTxItem) (r r' : BitVec 32),
      mergeItems t1 t2 r = .ok (merged, r') → flag merged = flag t1 ∧ flag t2 = flag t1)
    (h : Reshape items retrans items' retrans') : sizeOf flag items' = sizeOf flag items := by
  induction h with
  | refl => rfl
  | @split before after items item r r' node size hpos hlt _ ih =>
    obtain ⟨hfst, hsnd⟩ := hsplit item node size
    rw [ih, sizeOf_append, sizeOf_append, sizeOf_cons, sizeOf_cons, sizeOf_cons, hfst, hsnd,
      ← size_splitItems node hlt]
    split
    · rw [BitVec.add_assoc]
    · rw [zero_add]
  | @merge before after items t1 t2 merged r r₁ r' hmerged _ ih =>
    obtain ⟨h1, h2⟩ := hmerge _ _ _ _ _ hmerged
    have hsize : merged.size = t1.size + t2.size := by
      rw [TcpTxItem.size, (mergeItems_ok hmerged).1, length_append, ofNat_add]
      rfl
    rw [ih, sizeOf_append, sizeOf_append, sizeOf_cons, sizeOf_cons, sizeOf_cons, h1, h2, hsize]
    split
    · rw [BitVec.add_assoc]
    · rw [zero_add, zero_add]

section

variable (h : Reshape items retrans items' retrans')
include h

theorem sizeOf_sacked : sizeOf (·.sacked) items' = sizeOf (·.sacked) items := by
  refine h.sizeOf_eq (fun _ _ _ => ⟨rfl, rfl⟩) fun t1 t2 merged r r' hmerge => ?_
  obtain ⟨-, -, -, ⟨h12, hmerged⟩, -⟩ := mergeItems_ok hmerge
  exact ⟨hmerged, h12.symm⟩

theorem sizeOf_lost : sizeOf (·.lost) items' = sizeOf (·.lost) items := by
  refine h.sizeOf_eq (fun _ _ _ => ⟨rfl, rfl⟩) fun t1 t2 merged r r' hmerge => ?_
  obtain ⟨-, -, -, -, ⟨h12, hmerged⟩, -⟩ := mergeItems_ok hmerge
  exact ⟨hmerged, h12.symm⟩

/-- What the count has lost, the retransmitted items have lost. -/
theorem sizeOf_retrans :
    retrans' + sizeOf (·.retrans) items = retrans + sizeOf (·.retrans) items' := by
  induction h with
  | refl => rfl
  | @split before after items item r r' node size hpos hlt _ ih =>
    have hsame : sizeOf (·.retrans) (before ++ (splitItems item node size).1 ::
        (splitItems item node size).2 :: after) = sizeOf (·.retrans) (before ++ item :: after) := by
      rw [sizeOf_append, sizeOf_append, sizeOf_cons, sizeOf_cons, sizeOf_cons,
        ← size_splitItems node hlt]
      show sizeOf _ before + ((if item.retrans then _ else 0) + ((if item.retrans then _ else 0) + _)) = _
      split
      · rw [BitVec.add_assoc]
      · rw [zero_add, zero_add]
    rw [← hsame]
    exact ih
  | @merge before after items t1 t2 merged r r₁ r' hmerge _ ih =>
    obtain ⟨hpkt, -, -, -, -, -, hcount⟩ := mergeItems_ok hmerge
    have hsize : merged.size = t1.size + t2.size := by
      rw [TcpTxItem.size, hpkt, length_append, ofNat_add]
      rfl
    rw [sizeOf_append, sizeOf_cons, hsize] at ih
    rw [sizeOf_append, sizeOf_cons, sizeOf_cons]
    linear_combination ih + hcount

end

end Reshape

/-! ## 3. `GetPacketFromList` -/

variable {begins : SequenceNumber32}

section Walk

variable {check : TcpTxItem → Bool} {seq start : SequenceNumber32} {list : List TcpTxItem}

theorem locate_ok {before after : List TcpTxItem} {current : TcpTxItem}
    (h : locate check seq start list = .ok (before, begins, current, after)) :
    list = before ++ current :: after ∧ begins = start + ofNat 32 (bytesOf before).length ∧
      seq.lt (begins + current.size) = true := by
  induction list generalizing start before with
  | nil => cases h
  | cons item rest ih =>
    unfold locate at h
    split at h
    · cases h
    · split at h
      · next hlt =>
        cases h
        exact ⟨rfl, (add_zero _).symm, hlt⟩
      · obtain ⟨⟨before', begins', current', after'⟩, hrest, heq⟩ := except_bind_eq_ok.mp h
        cases heq
        obtain ⟨rfl, rfl, hlt⟩ := ih hrest
        refine ⟨rfl, ?_, hlt⟩
        rw [add_size_add, bytesOf_cons, length_append]

/-- A number past the beginning of a packet that its end is ahead of is inside the packet. -/
theorem inside_of_gt_of_lt {size : BitVec 32} (hpos : 0 < size.toNat) (hgt : seq.gt begins = true)
    (hlt : seq.lt (begins + size) = true) :
    0 < (seq - begins).toNat ∧ (seq - begins).toNat < size.toNat := by
  have hsize := size.isLt
  have hdiff : (seq - (begins + size)).toNat = (2 ^ 32 - size.toNat + (seq - begins).toNat) % 2 ^ 32 := by
    rw [sub_def, value_add, ← sub_sub, toNat_sub]
    rfl
  have hbound := (seq - begins).isLt
  rw [gt_iff] at hgt
  rw [lt, Bool.and_eq_true, Bool.not_eq_true', ← Bool.not_eq_true, gt_iff, hdiff] at hlt
  have hne : (seq - (begins + size)).toNat ≠ 0 := by
    intro h0
    have heq := add_sub seq (begins + size)
    rw [BitVec.eq_of_toNat_eq (x := seq - (begins + size)) (y := 0#32) h0, add_zero] at heq
    exact (of_decide_eq_true hlt.2) heq.symm
  omega

/-- A packet that does not reach the end of the bytes asked for has fewer of them. -/
theorem length_le_of_not_le {numBytes size : BitVec 32} (hsize : size.toNat < 2 ^ 31)
    (h : (begins + numBytes).le (begins + size) = false) : size.toNat ≤ numBytes.toNat := by
  rw [le, Bool.not_eq_false', gt_iff] at h
  have hdiff : ((begins + numBytes) - (begins + size)).toNat =
      (2 ^ 32 - size.toNat + numBytes.toNat) % 2 ^ 32 := by
    rw [sub_def, value_add, value_add, add_sub_add_left_eq_sub, toNat_sub]
  have hnum := numBytes.isLt
  omega

theorem toNat_size {item : TcpTxItem} (h : item.packet.length < 2 ^ 32) :
    item.size.toNat = item.packet.length := by
  rw [TcpTxItem.size, toNat_ofNat, Nat.mod_eq_of_lt h]

theorem getPacketFromList_ok {numBytes : BitVec 32} (hnum : 0 < numBytes) {fuel nodes : Nat}
    {retrans : BitVec 32} {found : Found} (hbound : (bytesOf list).length < 2 ^ 32)
    (hne : Nonempty list)
    (h : getPacketFromList check start numBytes seq fuel list retrans nodes = .ok found) :
    Reshape list retrans (found.before ++ found.item :: found.after) found.retrans ∧
      nodes ≤ found.nodes ∧ (bytesOf found.before).length = (seq - start).toNat ∧
      ((bytesOf list).length < 2 ^ 31 → found.item.packet.length ≤ numBytes.toNat) := by
  induction fuel generalizing list retrans nodes with
  | zero => cases h
  | succ fuel ih =>
    obtain ⟨⟨before, begins, current, after⟩, hlocate, hbody⟩ := except_bind_eq_ok.mp h
    dsimp only at hbody
    obtain ⟨rfl, hbegins, hlt⟩ := locate_ok hlocate
    have hlen := hbound
    rw [bytesOf_append, bytesOf_cons, length_append, length_append] at hlen
    have hsize : current.size.toNat = current.packet.length := toNat_size (by omega)
    have hcur := hne current (mem_append_right _ mem_cons_self)
    split at hbody
    · next heq =>
      have hbefore : (bytesOf before).length = (seq - start).toNat := by
        rw [heq, hbegins, add_sub_self, toNat_ofNat, Nat.mod_eq_of_lt (by omega)]
      split at hbody
      · split at hbody
        · next hexact =>
          cases hbody
          exact ⟨.refl _ _, le_refl _, hbefore, fun _ => le_of_eq (hexact ▸ hsize.symm)⟩
        · split at hbody
          · next hless =>
            cases hbody
            have hless' : numBytes.toNat < current.packet.length := hsize ▸ hless
            exact ⟨.split nodes hnum hless' (.refl _ _), Nat.le_succ _, hbefore,
              fun _ => le_of_eq (length_fst_splitItems hless')⟩
          · cases hbody
      · next hreach =>
        cases after with
        | nil =>
          cases hbody
          refine ⟨.refl _ _, le_refl _, hbefore, fun hhalf => ?_⟩
          rw [bytesOf_append, bytesOf_cons, length_append, length_append] at hhalf
          rw [← hsize]
          rw [heq, Bool.not_eq_true] at hreach
          exact length_le_of_not_le (by omega) hreach
        | cons next after =>
          obtain ⟨⟨merged, retrans₁⟩, hmerge, hbody⟩ := except_bind_eq_ok.mp hbody
          have hedit : Reshape (before ++ current :: next :: after) retrans
              (before ++ merged :: after) retrans₁ := .merge hmerge (.refl _ _)
          have hbytes := congrArg List.length hedit.bytesOf_eq
          obtain ⟨hrest, hnodes, hplace, hitem⟩ :=
            ih (hbytes ▸ hbound) (hedit.nonempty hne) hbody
          exact ⟨.merge hmerge hrest, hnodes, hplace, fun hhalf => hitem (hbytes ▸ hhalf)⟩
    · split at hbody
      · next hgt =>
        obtain ⟨hpos, hinside⟩ := inside_of_gt_of_lt (hsize.symm ▸ hcur) hgt hlt
        rw [hsize] at hinside
        have hedit : Reshape (before ++ current :: after) retrans
            (before ++ (splitItems current nodes (seq - begins)).1 ::
              (splitItems current nodes (seq - begins)).2 :: after) retrans :=
          .split nodes hpos hinside (.refl _ _)
        have hbytes := congrArg List.length hedit.bytesOf_eq
        obtain ⟨hrest, hnodes, hplace, hitem⟩ := ih (hbytes ▸ hbound) (hedit.nonempty hne) hbody
        exact ⟨.split nodes hpos hinside hrest, Nat.le_of_succ_le hnodes, hplace,
          fun hhalf => hitem (hbytes ▸ hhalf)⟩
      · cases hbody

end Walk

end MoeJit.Tcp
