import Mathlib.Data.List.Perm.Subperm
import Mathlib.Data.List.TakeWhile
import Mathlib.Order.Lattice

/-!
# Reordering

Items have numbers on a line, and are given out in their order, each once. The items that wait are
held in the order of their numbers, none of which is before the start. `releaseBelow` gives out the
items before a new start, whether or not there are gaps, and `releaseRun` those that follow the
start without a gap.

A release changes nothing of the line, which is what has been given out and what is held
(`line_releaseBelow`, `line_releaseRun`). `Sound` is what all operations keep.
-/

namespace ReorderBuffer

open List

structure Reorder (α : Type) where
  start : Nat
  held : List (Nat × α) := []
  released : List (Nat × α) := []

variable {α : Type}

/-- All items, in the order in which they are given out. -/
def Reorder.line (s : Reorder α) : List (Nat × α) := s.released ++ s.held

/-- The item is put in its place, unless there is one with its number. -/
def hold (x : Nat × α) : List (Nat × α) → List (Nat × α)
  | [] => [x]
  | y :: rest =>
    if x.1 < y.1 then x :: y :: rest else if y.1 < x.1 then y :: hold x rest else y :: rest

def Reorder.hold (s : Reorder α) (x : Nat × α) : Reorder α :=
  { s with held := ReorderBuffer.hold x s.held }

def Reorder.releaseBelow (s : Reorder α) (limit : Nat) : Reorder α where
  start := limit
  held := s.held.dropWhile fun x => x.1 < limit
  released := s.released ++ s.held.takeWhile fun x => x.1 < limit

/-- The items that follow the start without a gap. -/
def consecutive (start : Nat) : List (Nat × α) → List (Nat × α)
  | [] => []
  | x :: rest => if x.1 = start then x :: consecutive (start + 1) rest else []

def Reorder.releaseRun (s : Reorder α) : Reorder α where
  start := s.start + (consecutive s.start s.held).length
  held := s.held.drop (consecutive s.start s.held).length
  released := s.released ++ consecutive s.start s.held

/-- In the order of the numbers. -/
abbrev Ascending (l : List (Nat × α)) : Prop := l.Pairwise fun x y => x.1 < y.1

/-- What is given out is in order and before the start, and nothing held is. -/
structure Sound (s : Reorder α) : Prop where
  ascending : Ascending s.line
  past : ∀ x ∈ s.released, x.1 < s.start
  coming : ∀ x ∈ s.held, s.start ≤ x.1

variable {s : Reorder α} {x : Nat × α} {l : List (Nat × α)}

theorem Sound.held_ascending (h : Sound s) : Ascending s.held :=
  (pairwise_append.mp h.ascending).2.1

theorem Sound.released_ascending (h : Sound s) : Ascending s.released :=
  (pairwise_append.mp h.ascending).1

theorem sound_new (start : Nat) : Sound (α := α) { start } where
  ascending := List.Pairwise.nil
  past _ hx := absurd hx not_mem_nil
  coming _ hx := absurd hx not_mem_nil

/-! ## 1. Holding -/

theorem mem_hold {y : Nat × α} (h : y ∈ hold x l) : y = x ∨ y ∈ l := by
  induction l with
  | nil => exact .inl (mem_singleton.mp h)
  | cons z rest ih =>
    rw [hold] at h
    split at h
    · exact mem_cons.mp h
    · split at h
      · rcases mem_cons.mp h with rfl | hrest
        · exact .inr mem_cons_self
        · exact (ih hrest).imp_right (mem_cons_of_mem z)
      · exact .inr h

theorem hold_ascending (h : Ascending l) : Ascending (hold x l) := by
  induction l with
  | nil => exact pairwise_singleton _ x
  | cons z rest ih =>
    have ⟨hz, hrest⟩ := pairwise_cons.mp h
    rw [hold]
    split
    · next hxz =>
      refine pairwise_cons.mpr ⟨fun y hy => ?_, h⟩
      rcases mem_cons.mp hy with rfl | hy
      · exact hxz
      · exact hxz.trans (hz y hy)
    · split
      · next hzx =>
        refine pairwise_cons.mpr ⟨fun y hy => ?_, ih hrest⟩
        rcases mem_hold hy with rfl | hy
        · exact hzx
        · exact hz y hy
      · exact h

theorem hold_subperm (x : Nat × α) (l : List (Nat × α)) : List.Subperm (hold x l) (x :: l) := by
  induction l with
  | nil => exact List.Subperm.refl _
  | cons z rest ih =>
    rw [hold]
    split
    · exact List.Subperm.refl _
    · split
      · exact ((subperm_cons z).mpr ih).trans (List.Perm.swap x z rest).subperm
      · exact (sublist_cons_self x (z :: rest)).subperm

theorem Sound.hold (h : Sound s) (hx : s.start ≤ x.1) : Sound (s.hold x) where
  ascending := by
    have ⟨hreleased, hheld, hacross⟩ := pairwise_append.mp h.ascending
    refine pairwise_append.mpr ⟨hreleased, hold_ascending hheld, fun y hy z hz => ?_⟩
    rcases mem_hold hz with rfl | hz
    · exact (h.past y hy).trans_le hx
    · exact hacross y hy z hz
  past := h.past
  coming y hy := by
    rcases mem_hold hy with rfl | hy
    · exact hx
    · exact h.coming y hy

theorem subperm_map {β : Type} (f : α → β) {l l' : List α} (h : List.Subperm l l') :
    List.Subperm (l.map f) (l'.map f) := by
  obtain ⟨kept, hperm, hsub⟩ := h
  exact ⟨kept.map f, hperm.map f, hsub.map f⟩

theorem line_hold_subperm (s : Reorder α) (x : Nat × α) :
    List.Subperm (s.hold x).line (x :: s.line) :=
  ((subperm_append_left s.released).mpr (hold_subperm x s.held)).trans perm_middle.subperm

/-! ## 2. Releases -/

theorem line_releaseBelow (s : Reorder α) (limit : Nat) : (s.releaseBelow limit).line = s.line := by
  rw [Reorder.line, Reorder.releaseBelow, append_assoc, takeWhile_append_dropWhile]
  rfl

theorem consecutive_append_drop (start : Nat) (l : List (Nat × α)) :
    consecutive start l ++ l.drop (consecutive start l).length = l := by
  induction l generalizing start with
  | nil => rfl
  | cons x rest ih =>
    rw [consecutive]
    split
    · rw [length_cons, drop_succ_cons, cons_append, ih]
    · rfl

theorem line_releaseRun (s : Reorder α) : s.releaseRun.line = s.line := by
  rw [Reorder.line, Reorder.releaseRun, append_assoc, consecutive_append_drop]
  rfl

variable {start limit : Nat}

theorem lt_of_mem_consecutive (h : x ∈ consecutive start l) :
    x.1 < start + (consecutive start l).length := by
  induction l generalizing start with
  | nil => exact absurd h not_mem_nil
  | cons y rest ih =>
    rw [consecutive] at h ⊢
    split at h
    · next heq =>
      rw [if_pos heq, length_cons]
      rcases mem_cons.mp h with rfl | h
      · omega
      · have := ih h
        omega
    · exact absurd h not_mem_nil

/-- The first item left after a run is not at the new start. -/
theorem lt_of_mem_drop_consecutive (hl : Ascending l) (hcoming : ∀ x ∈ l, start ≤ x.1)
    (h : x ∈ l.drop (consecutive start l).length) : start + (consecutive start l).length < x.1 := by
  induction l generalizing start with
  | nil => exact absurd h not_mem_nil
  | cons y rest ih =>
    have ⟨hy, hrest⟩ := pairwise_cons.mp hl
    have hstart := hcoming y mem_cons_self
    rw [consecutive] at h ⊢
    split at h
    · next heq =>
      rw [if_pos heq, length_cons]
      rw [length_cons, drop_succ_cons] at h
      have hlater : ∀ z ∈ rest, start + 1 ≤ z.1 := fun z hz => heq ▸ hy z hz
      have := ih hrest hlater h
      omega
    · next hne =>
      rw [if_neg hne]
      rcases mem_cons.mp h with rfl | h
      · exact lt_of_le_of_ne hstart (Ne.symm hne)
      · exact hstart.trans_lt (hy x h)

/-- The numbers of a run are all those up to its end. -/
theorem exists_mem_consecutive {k : Nat} (hle : start ≤ k)
    (hlt : k < start + (consecutive start l).length) : ∃ x ∈ consecutive start l, x.1 = k := by
  induction l generalizing start with
  | nil => exact absurd (Nat.lt_of_le_of_lt hle hlt) (Nat.lt_irrefl start)
  | cons y rest ih =>
    rw [consecutive] at hlt ⊢
    split at hlt
    · next heq =>
      rw [if_pos heq]
      rcases Nat.eq_or_lt_of_le hle with rfl | hlater
      · exact ⟨y, mem_cons_self, heq⟩
      · rw [length_cons, ← Nat.add_assoc, Nat.add_right_comm] at hlt
        obtain ⟨x, hx, hk⟩ := ih hlater hlt
        exact ⟨x, mem_cons_of_mem y hx, hk⟩
    · exact absurd (Nat.lt_of_le_of_lt hle hlt) (Nat.lt_irrefl start)

/-- Everything is in the run when no number is missing. -/
theorem drop_consecutive_eq_nil_iff (hl : Ascending l) (hcoming : ∀ x ∈ l, start ≤ x.1) :
    l.drop (consecutive start l).length = [] ↔
      ∀ x ∈ l, ∀ k, start ≤ k → k ≤ x.1 → ∃ y ∈ l, y.1 = k := by
  have hall := consecutive_append_drop start l
  constructor
  · intro hnil x hx k hle hk
    rw [hnil, append_nil] at hall
    have hlt := lt_of_mem_consecutive (hall.symm ▸ hx : x ∈ consecutive start l)
    obtain ⟨y, hy, hyk⟩ := exists_mem_consecutive hle (hk.trans_lt hlt)
    exact ⟨y, hall ▸ hy, hyk⟩
  · intro h
    refine eq_nil_iff_forall_not_mem.mpr fun x hx => ?_
    have hlt := lt_of_mem_drop_consecutive hl hcoming hx
    obtain ⟨y, hy, hyk⟩ := h x (mem_of_mem_drop hx) _ (Nat.le_add_right _ _) hlt.le
    rw [← hall] at hy
    rcases mem_append.mp hy with hy | hy
    · exact absurd (lt_of_mem_consecutive hy) (hyk ▸ Nat.lt_irrefl _)
    · exact absurd (lt_of_mem_drop_consecutive hl hcoming hy) (hyk ▸ Nat.lt_irrefl _)

theorem le_of_mem_dropWhile (hl : Ascending l) (h : x ∈ l.dropWhile fun y => y.1 < limit) :
    limit ≤ x.1 := by
  induction l with
  | nil => exact absurd h not_mem_nil
  | cons y rest ih =>
    have ⟨hy, hrest⟩ := pairwise_cons.mp hl
    rw [dropWhile_cons] at h
    split at h
    · exact ih hrest h
    · next hge =>
      have hlimit : limit ≤ y.1 := not_lt.mp fun hlt => hge (decide_eq_true hlt)
      rcases mem_cons.mp h with rfl | h
      · exact hlimit
      · exact hlimit.trans (hy x h).le

/-- What is not before the limit is not dropped. -/
theorem mem_dropWhile_of_le (hx : x ∈ l) (hle : limit ≤ x.1) :
    x ∈ l.dropWhile fun y => y.1 < limit := by
  have hall : l.takeWhile (fun y => y.1 < limit) ++ l.dropWhile (fun y => y.1 < limit) = l :=
    takeWhile_append_dropWhile
  rw [← hall] at hx
  rcases mem_append.mp hx with hx | hx
  · have hlt : decide (x.1 < limit) = true :=
      mem_takeWhile_imp (p := fun y : Nat × α => decide (y.1 < limit)) hx
    exact absurd (of_decide_eq_true hlt) (not_lt.mpr hle)
  · exact hx

theorem Sound.releaseBelow (h : Sound s) (hle : s.start ≤ limit) :
    Sound (s.releaseBelow limit) where
  ascending := (line_releaseBelow s limit).symm ▸ h.ascending
  past x hx := by
    rcases mem_append.mp hx with hx | hx
    · exact (h.past x hx).trans_le hle
    · have hlt : decide (x.1 < limit) = true :=
        mem_takeWhile_imp (p := fun y : Nat × α => decide (y.1 < limit)) hx
      exact of_decide_eq_true hlt
  coming _ hx := le_of_mem_dropWhile h.held_ascending hx

theorem lt_of_mem_releaseRun (h : Sound s) (hx : x ∈ s.releaseRun.held) :
    s.releaseRun.start < x.1 :=
  lt_of_mem_drop_consecutive h.held_ascending h.coming hx

theorem releaseRun_start_le {bound : Nat} (h : ∀ x ∈ s.held, x.1 < bound) (hs : s.start ≤ bound) :
    s.releaseRun.start ≤ bound := by
  have hrun : ∀ (l : List (Nat × α)) (start : Nat), (∀ x ∈ l, x.1 < bound) → start ≤ bound →
      start + (consecutive start l).length ≤ bound := by
    intro l
    induction l with
    | nil => exact fun _ _ hstart => hstart
    | cons x rest ih =>
      intro start hl hstart
      rw [consecutive]
      split
      · next heq =>
        have hx := hl x mem_cons_self
        have := ih (start + 1) (fun y hy => hl y (mem_cons_of_mem x hy)) (heq ▸ hx)
        rw [length_cons]
        omega
      · exact hstart
  exact hrun s.held s.start h hs

theorem Sound.releaseRun (h : Sound s) : Sound s.releaseRun where
  ascending := (line_releaseRun s).symm ▸ h.ascending
  past x hx := by
    rcases mem_append.mp hx with hx | hx
    · exact (h.past x hx).trans_le (Nat.le_add_right _ _)
    · exact lt_of_mem_consecutive hx
  coming _ hx := (lt_of_mem_releaseRun h hx).le

/-- Everything is given out when no number from the limit on, up to that of an item, is missing. -/
theorem held_release_eq_nil_iff (h : Sound s) (hle : s.start ≤ limit) :
    (s.releaseBelow limit).releaseRun.held = [] ↔
      ∀ x ∈ s.held, ∀ k, limit ≤ k → k ≤ x.1 → ∃ y ∈ s.held, y.1 = k := by
  have hbelow := h.releaseBelow hle
  refine (drop_consecutive_eq_nil_iff hbelow.held_ascending hbelow.coming).trans ?_
  constructor
  · intro hrun x hx k hk hkx
    obtain ⟨y, hy, hyk⟩ := hrun x (mem_dropWhile_of_le hx (hk.trans hkx)) k hk hkx
    exact ⟨y, dropWhile_subset _ hy, hyk⟩
  · intro hall x hx k hk hkx
    obtain ⟨y, hy, hyk⟩ := hall x (dropWhile_subset _ hx) k hk hkx
    exact ⟨y, mem_dropWhile_of_le hy (hyk.symm ▸ hk), hyk⟩

end ReorderBuffer
