import Mathlib.Algebra.Group.Nat.Defs
import Mathlib.Data.List.Perm.Basic

/-!
# Objects that count the pointers to them

Objects in an arena, each with a 32-bit count of the pointers to it. The last pointer that goes away
frees the object, and its address is not used again. While the counts are right (`Counted`) an
object that a pointer leads to is there, and one with the count 1 has no other pointer.
-/

namespace RefCount

open List

structure Cell (δ : Type) where
  count : BitVec 32
  value : δ
  deriving DecidableEq

abbrev Heap (δ : Type) := List (Option (Cell δ))

namespace Heap

variable {δ : Type} (h : Heap δ)

def cell? (a : Nat) : Option (Cell δ) := h[a]?.join

def value? (a : Nat) : Option δ := (h.cell? a).map Cell.value

/-- An object with one pointer to it. Its address is the length of the heap. -/
def alloc (value : δ) : Heap δ := h ++ [some ⟨1, value⟩]

def setValue (a : Nat) (value : δ) : Heap δ :=
  h.set a ((h.cell? a).map fun cell => { cell with value := value })

/-- One more pointer. -/
def retain (a : Nat) : Heap δ :=
  h.set a ((h.cell? a).map fun cell => { cell with count := cell.count + 1 })

/-- One pointer less. -/
def release (a : Nat) : Heap δ :=
  h.set a ((h.cell? a).bind fun cell =>
    if cell.count - 1 = 0 then none else some { cell with count := cell.count - 1 })

end Heap

/-- The counts are those of the pointers, none of which dangles. -/
structure Counted {δ : Type} (h : Heap δ) (pointers : List (Option Nat)) : Prop where
  count : ∀ a cell, h.cell? a = some cell →
    cell.count = BitVec.ofNat 32 (pointers.count (some a))
  present : ∀ a, some a ∈ pointers → ∃ cell, h.cell? a = some cell

section Counts

variable {δ : Type} {h : Heap δ} {pointers others : List (Option Nat)} {a b : Nat} {cell : Cell δ}

theorem cell?_lt (hcell : h.cell? a = some cell) : a < h.length := by
  by_contra hge
  have hnone : h.cell? a = none := congrArg Option.join (getElem?_eq_none (Nat.le_of_not_lt hge))
  rw [hnone] at hcell
  cases hcell

theorem cell?_set (hcell : h.cell? a = some cell) (cell' : Option (Cell δ)) (b : Nat) :
    Heap.cell? (h.set a cell') b = if b = a then cell' else h.cell? b := by
  unfold Heap.cell?
  split
  · next heq => rw [heq, getElem?_set_self (cell?_lt hcell)]; rfl
  · next hne => rw [getElem?_set_ne (Ne.symm hne)]

theorem cell?_alloc (value : δ) (b : Nat) :
    (h.alloc value).cell? b = if b = h.length then some ⟨1, value⟩ else h.cell? b := by
  unfold Heap.cell? Heap.alloc
  split
  · next heq => rw [heq, getElem?_concat_length]; rfl
  · next hne =>
    cases Nat.lt_or_ge b h.length with
    | inl hlt => rw [getElem?_append_left hlt]
    | inr hge =>
      have hout : (h ++ [some (Cell.mk 1 value)]).length ≤ b := by
        rw [length_append]
        exact Nat.lt_of_le_of_ne hge (Ne.symm hne)
      rw [getElem?_eq_none hout, getElem?_eq_none hge]

section

variable (hcell : h.cell? a = some cell)
include hcell

theorem cell?_setValue (value : δ) (b : Nat) : (h.setValue a value).cell? b =
      if b = a then some { cell with value := value } else h.cell? b := by
  unfold Heap.setValue
  rw [hcell]
  exact cell?_set hcell _ b

theorem cell?_retain (b : Nat) : (h.retain a).cell? b =
      if b = a then some { cell with count := cell.count + 1 } else h.cell? b := by
  unfold Heap.retain
  rw [hcell]
  exact cell?_set hcell _ b

theorem cell?_release (b : Nat) : (h.release a).cell? b = if b = a then
        if cell.count - 1 = 0 then none else some { cell with count := cell.count - 1 }
      else h.cell? b := by
  unfold Heap.release
  rw [hcell]
  exact cell?_set hcell _ b

theorem value?_eq : h.value? a = some cell.value := by
  unfold Heap.value?
  rw [hcell]
  rfl

end

theorem Counted.perm (hc : Counted h pointers) (hperm : pointers.Perm others) :
    Counted h others where
  count := fun a cell hcell => hperm.count_eq (some a) ▸ hc.count a cell hcell
  present := fun a ha => hc.present a (hperm.mem_iff.mpr ha)

/-- A pointer to nothing is none. -/
theorem counted_none : Counted h (none :: pointers) ↔ Counted h pointers := by
  have hcount (a : Nat) : (none :: pointers).count (some a) = pointers.count (some a) :=
    count_cons_of_ne (Option.some_ne_none a).symm
  constructor
  · intro hc
    exact ⟨fun a cell hcell => hcount a ▸ hc.count a cell hcell,
      fun a ha => hc.present a (mem_cons_of_mem none ha)⟩
  · intro hc
    refine ⟨fun a cell hcell => hcount a ▸ hc.count a cell hcell, fun a ha => ?_⟩
    cases mem_cons.mp ha with
    | inl heq => cases heq
    | inr hmem => exact hc.present a hmem

/-- The address of a new object is not that of another one. -/
theorem Counted.lt (hc : Counted h pointers) (ha : some a ∈ pointers) : a < h.length := by
  obtain ⟨cell, hcell⟩ := hc.present a ha
  exact cell?_lt hcell

theorem Counted.alloc (hc : Counted h pointers) (value : δ) :
    Counted (h.alloc value) (some h.length :: pointers) where
  count := by
    intro a cell hcell
    rw [cell?_alloc] at hcell
    split at hcell
    · next heq =>
      have hfresh : pointers.count (some h.length) = 0 :=
        count_eq_zero.mpr fun hmem => Nat.lt_irrefl _ (hc.lt hmem)
      cases hcell
      rw [heq, count_cons_self, hfresh]
      rfl
    · next hne =>
      rw [count_cons_of_ne fun heq => hne (Option.some.inj heq).symm]
      exact hc.count a cell hcell
  present := by
    intro a ha
    rw [cell?_alloc]
    split
    · exact ⟨_, rfl⟩
    · next hne =>
      refine hc.present a ((mem_cons.mp ha).resolve_left fun heq => ?_)
      exact hne (Option.some.inj heq)

theorem Counted.setValue (hc : Counted h pointers) (hcell : h.cell? a = some cell) (value : δ) :
    Counted (h.setValue a value) pointers where
  count := by
    intro b cell' hcell'
    rw [cell?_setValue hcell] at hcell'
    split at hcell'
    · next heq =>
      cases hcell'
      exact heq ▸ hc.count a cell hcell
    · exact hc.count b cell' hcell'
  present := by
    intro b hb
    rw [cell?_setValue hcell]
    split
    · exact ⟨_, rfl⟩
    · exact hc.present b hb

section

variable (hc : Counted h (some a :: pointers))
include hc

theorem Counted.retain :
    Counted (h.retain a) (some a :: some a :: pointers) ∧
      ∀ b, (h.retain a).value? b = h.value? b := by
  obtain ⟨cell, hcell⟩ := hc.present a mem_cons_self
  refine ⟨⟨fun b cell' hcell' => ?_, fun b hb => ?_⟩, fun b => ?_⟩
  · rw [cell?_retain hcell] at hcell'
    split at hcell'
    · next heq =>
      cases hcell'
      rw [heq, count_cons_self, BitVec.ofNat_add, ← hc.count a cell hcell]
      rfl
    · next hne =>
      rw [count_cons_of_ne fun heq => hne (Option.some.inj heq).symm]
      exact hc.count b cell' hcell'
  · rw [cell?_retain hcell]
    split
    · exact ⟨_, rfl⟩
    · exact hc.present b ((mem_cons.mp hb).elim (fun heq => heq ▸ mem_cons_self) id)
  · unfold Heap.value?
    rw [cell?_retain hcell]
    split
    · next heq => rw [heq, hcell]; rfl
    · rfl

/-- What other pointers lead to is still there. -/
theorem Counted.release
    (hroom : pointers.count (some a) < 2 ^ 32) :
    Counted (h.release a) pointers ∧
      (∀ b, some b ∈ pointers → (h.release a).value? b = h.value? b) ∧
      ∀ b value, (h.release a).value? b = some value → h.value? b = some value := by
  obtain ⟨cell, hcell⟩ := hc.present a mem_cons_self
  have hless : cell.count - 1 = BitVec.ofNat 32 (pointers.count (some a)) := by
    rw [hc.count a cell hcell, count_cons_self, BitVec.ofNat_add]
    exact BitVec.add_sub_cancel _ _
  have hzero : cell.count - 1 = 0 ↔ some a ∉ pointers := by
    rw [hless, ← count_eq_zero, ← BitVec.toNat_inj, BitVec.toNat_ofNat, Nat.mod_eq_of_lt hroom]
    exact Iff.rfl
  refine ⟨⟨fun b cell' hcell' => ?_, fun b hb => ?_⟩, fun b hb => ?_, fun b value hval => ?_⟩
  · rw [cell?_release hcell] at hcell'
    split at hcell'
    · next heq =>
      split at hcell'
      · cases hcell'
      · cases hcell'
        exact heq ▸ hless
    · next hne =>
      rw [hc.count b cell' hcell', count_cons_of_ne fun heq => hne (Option.some.inj heq).symm]
  · rw [cell?_release hcell]
    split
    · next heq =>
      rw [if_neg fun h => hzero.mp h (heq ▸ hb)]
      exact ⟨_, rfl⟩
    · exact hc.present b (mem_cons_of_mem _ hb)
  · unfold Heap.value?
    rw [cell?_release hcell]
    split
    · next heq =>
      rw [if_neg fun h => hzero.mp h (heq ▸ hb), heq, hcell]
      rfl
    · rfl
  · unfold Heap.value? at hval ⊢
    rw [cell?_release hcell] at hval
    split at hval
    · next heq =>
      split at hval
      · cases hval
      · rw [heq, hcell]
        exact hval
    · exact hval

/-- An object with the count 1 has no other pointer. -/
theorem Counted.unique
    (hroom : pointers.count (some a) + 1 < 2 ^ 32) (hcell : h.cell? a = some cell)
    (hone : cell.count = 1) : some a ∉ pointers := by
  have hcount := hc.count a cell hcell
  rw [hone, count_cons_self, ← BitVec.toNat_inj, BitVec.toNat_ofNat, Nat.mod_eq_of_lt hroom]
    at hcount
  exact count_eq_zero.mp (Nat.succ.inj hcount).symm

end

end Counts

end RefCount
