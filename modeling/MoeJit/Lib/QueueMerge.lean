import Mathlib.Algebra.BigOperators.Fin
import Mathlib.Algebra.Order.BigOperators.Group.Finset

/-!
# Merging many queues

A loop that takes, again and again, the best of the heads of many queues. How the
best head is found is left open: `Picks` says what has to come out. Each queue is
taken whole and in its own order (`merge_queue`), the loop ends by itself
(`merge_fuel`), and what comes out is sorted when the queues are (`merge_sorted`).
-/

namespace QueueMerge

open List
open Function (update update_apply update_of_ne update_self)

variable {ι α : Type*} [DecidableEq ι]

/-- `pick` finds a head that is not behind any other, if there is one. -/
structure Picks (le : α → α → Prop) (pick : (ι → List α) → Option (ι × α)) : Prop where
  none {queues : ι → List α} : pick queues = none → ∀ i, queues i = []
  head {queues : ι → List α} {i : ι} {a : α} :
    pick queues = some (i, a) → ∃ rest, queues i = a :: rest
  best {queues : ι → List α} {i j : ι} {a b : α} {rest : List α} :
    pick queues = some (i, a) → queues j = b :: rest → le a b

/-- The heads in the order in which the loop takes them, with their queues. -/
def merge (pick : (ι → List α) → Option (ι × α)) : Nat → (ι → List α) → List (ι × α)
  | 0, _ => []
  | fuel + 1, queues =>
    match pick queues with
    | none => []
    | some (i, a) => (i, a) :: merge pick fuel (Function.update queues i (queues i).tail)

/-- How much there is to take. -/
def size [Fintype ι] (queues : ι → List α) : Nat := ∑ i, (queues i).length

variable {le : α → α → Prop} {pick : (ι → List α) → Option (ι × α)} {queues : ι → List α}

theorem size_tail [Fintype ι] {i : ι} {a : α} {rest : List α} (h : queues i = a :: rest) :
    size queues = size (update queues i (queues i).tail) + 1 := by
  have hrest : ∀ f : ι → List α, size f =
      (f i).length + ∑ j ∈ Finset.univ.erase i, (f j).length := fun f =>
    (Finset.add_sum_erase _ (fun j => (f j).length) (Finset.mem_univ i)).symm
  have hsame : ∑ j ∈ Finset.univ.erase i, (update queues i (queues i).tail j).length =
      ∑ j ∈ Finset.univ.erase i, (queues j).length :=
    Finset.sum_congr rfl fun j hj => by rw [update_of_ne (Finset.ne_of_mem_erase hj)]
  rw [hrest queues, hrest (update queues i (queues i).tail), hsame, update_self, h,
    length_cons, tail_cons]
  omega

omit [DecidableEq ι] in
theorem size_eq_zero [Fintype ι] : size queues = 0 ↔ ∀ i, queues i = [] := by
  simp only [size, Finset.sum_eq_zero_iff, Finset.mem_univ, true_imp_iff, length_eq_zero_iff]

theorem merge_queue [Fintype ι] (hpick : Picks le pick) {fuel : Nat} (hfuel : size queues ≤ fuel)
    (i : ι) : ((merge pick fuel queues).filter (·.1 = i)).map (·.2) = queues i := by
  induction fuel generalizing queues with
  | zero => exact (size_eq_zero.mp (Nat.le_zero.mp hfuel) i).symm
  | succ fuel ih =>
    rw [merge]
    split
    · next hnone => exact (hpick.none hnone i).symm
    · next j a hsome =>
      obtain ⟨rest, hrest⟩ := hpick.head hsome
      have hless := size_tail hrest
      have htail := @ih (update queues j (queues j).tail) (by omega)
      rcases eq_or_ne j i with rfl | hne
      · rw [filter_cons_of_pos (by simp), map_cons, htail, update_self, hrest, tail_cons]
      · rw [filter_cons_of_neg (by simpa using hne), htail, update_of_ne hne.symm]

theorem merge_of_empty (hpick : Picks le pick) (hempty : ∀ i, queues i = []) (fuel : Nat) :
    merge pick fuel queues = [] := by
  cases fuel with
  | zero => rfl
  | succ fuel =>
    rw [merge]
    split
    · rfl
    · next i a hsome =>
      obtain ⟨rest, hrest⟩ := hpick.head hsome
      exact absurd (hrest.symm.trans (hempty i)) (cons_ne_nil _ _)

theorem merge_fuel [Fintype ι] (hpick : Picks le pick) {fuel more : Nat}
    (hfuel : size queues ≤ fuel) (hmore : size queues ≤ more) :
    merge pick fuel queues = merge pick more queues := by
  induction fuel generalizing queues more with
  | zero =>
    have hempty := size_eq_zero.mp (Nat.le_zero.mp hfuel)
    rw [merge_of_empty hpick hempty, merge_of_empty hpick hempty]
  | succ fuel ih =>
    cases more with
    | zero =>
      have hempty := size_eq_zero.mp (Nat.le_zero.mp hmore)
      rw [merge_of_empty hpick hempty, merge_of_empty hpick hempty]
    | succ more =>
      rw [merge, merge]
      split
      · rfl
      · next j a hsome =>
        obtain ⟨rest, hrest⟩ := hpick.head hsome
        have hless := size_tail hrest
        exact congrArg _ (ih (by omega) (by omega))

theorem mem_of_mem_tail {i j : ι} {a : α}
    (h : a ∈ update queues i (queues i).tail j) : a ∈ queues j := by
  rw [update_apply] at h
  split at h
  · next heq => exact heq ▸ List.mem_of_mem_tail h
  · exact h

theorem mem_of_mem_merge (hpick : Picks le pick) {fuel : Nat} {p : ι × α}
    (hp : p ∈ merge pick fuel queues) : p.2 ∈ queues p.1 := by
  induction fuel generalizing queues with
  | zero => exact absurd hp not_mem_nil
  | succ fuel ih =>
    rw [merge] at hp
    split at hp
    · exact absurd hp not_mem_nil
    · next j a hsome =>
      obtain ⟨rest, hrest⟩ := hpick.head hsome
      rcases mem_cons.mp hp with rfl | hlater
      · rw [hrest]
        exact mem_cons_self
      · exact mem_of_mem_tail (ih hlater)

theorem merge_sorted [IsTrans α le] (hpick : Picks le pick)
    (hsorted : ∀ i, (queues i).Pairwise le) (fuel : Nat) :
    (merge pick fuel queues).Pairwise fun p q => le p.2 q.2 := by
  induction fuel generalizing queues with
  | zero => exact .nil
  | succ fuel ih =>
    rw [merge]
    split
    · exact .nil
    · next j a hsome =>
      have hrest : ∀ i, (update queues j (queues j).tail i).Pairwise le := fun i => by
        rw [update_apply]
        split
        · exact (hsorted j).tail
        · exact hsorted i
      refine pairwise_cons.mpr ⟨fun p hp => ?_, ih hrest⟩
      -- what comes later stands in its queue, behind a head that is not better
      have hmem : p.2 ∈ queues p.1 := mem_of_mem_tail (mem_of_mem_merge hpick hp)
      have hqueue := hsorted p.1
      cases hq : queues p.1 with
      | nil => exact absurd (hq ▸ hmem) not_mem_nil
      | cons b rest =>
        have hhead := hpick.best hsome hq
        rw [hq] at hmem hqueue
        rcases mem_cons.mp hmem with heq | hin
        · exact heq ▸ hhead
        · exact trans_of le hhead (rel_of_pairwise_cons hqueue hin)

end QueueMerge
