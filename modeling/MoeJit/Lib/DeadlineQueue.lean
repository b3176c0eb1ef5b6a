import Mathlib.Data.List.Basic
import Mathlib.Order.Nat

/-!
# Deadlines that share a timer

A queue of deadlines, all of them the same time after they were set, and the events that look after
it. An event takes out what is due and schedules another one for the deadline that is next; the
first event is scheduled when the queue was empty. Deadlines can be taken out in between, so that
events come too early or find nothing. `Sound` is what holds all along: an event is pending no later
than the first deadline, so that the clock does not go past one (`Sound.wait`).
-/

namespace DeadlineQueue

open List

variable {κ : Type}

structure Deadlines (κ : Type) where
  now : Nat
  queue : List (Nat × κ)
  /-- The times of the events. -/
  pending : List Nat

namespace Deadlines

def set (timeout : Nat) (k : κ) (s : Deadlines κ) : Deadlines κ :=
  { s with
    queue := s.queue ++ [(s.now + timeout, k)]
    pending := if s.queue.isEmpty then (s.now + timeout) :: s.pending else s.pending }

def remove (p : Nat × κ → Bool) (s : Deadlines κ) : Deadlines κ :=
  { s with queue := s.queue.filter fun x => !p x }

def wait (time : Nat) (s : Deadlines κ) : Deadlines κ := { s with now := time }

/-- An event of this time. -/
def fire (s : Deadlines κ) : Deadlines κ :=
  let queue := s.queue.dropWhile fun x => x.1 = s.now
  { s with
    queue := queue
    pending := (queue.head?.map Prod.fst).toList ++ s.pending.erase s.now }

structure Sound (s : Deadlines κ) : Prop where
  sorted : s.queue.Pairwise fun a b => a.1 ≤ b.1
  waiting : ∀ x ∈ s.queue, s.now ≤ x.1
  ahead : ∀ e ∈ s.pending, s.now ≤ e
  served : ∀ x ∈ s.queue.head?, ∃ e ∈ s.pending, e ≤ x.1

/-- Deadlines are set after the same time. -/
def Within (timeout : Nat) (s : Deadlines κ) : Prop := ∀ x ∈ s.queue, x.1 ≤ s.now + timeout

variable {s : Deadlines κ}

theorem Sound.head_le (h : Sound s) {x y : Nat × κ} (hx : x ∈ s.queue.head?) (hy : y ∈ s.queue) :
    x.1 ≤ y.1 := by
  have hsorted := h.sorted
  cases hqueue : s.queue with
  | nil => rw [hqueue] at hy; exact absurd hy not_mem_nil
  | cons first rest =>
    rw [hqueue] at hx hy hsorted
    obtain rfl := Option.some.inj hx
    rcases mem_cons.mp hy with rfl | hrest
    · exact le_refl _
    · exact (pairwise_cons.mp hsorted).1 y hrest

variable {timeout : Nat}

theorem Sound.set (h : Sound s) (hwithin : Within timeout s) (k : κ) : Sound (s.set timeout k) where
  sorted := by
    refine pairwise_append.mpr ⟨h.sorted, pairwise_singleton _ _, fun x hx y hy => ?_⟩
    rw [mem_singleton.mp hy]
    exact hwithin x hx
  waiting x hx := by
    rcases mem_append.mp hx with hx | hx
    · exact h.waiting x hx
    · rw [mem_singleton.mp hx]
      exact Nat.le_add_right _ _
  ahead e he := by
    change e ∈ (if s.queue.isEmpty then (s.now + timeout) :: s.pending else s.pending) at he
    split at he
    · rcases mem_cons.mp he with rfl | he
      · exact Nat.le_add_right _ _
      · exact h.ahead e he
    · exact h.ahead e he
  served x hx := by
    change x ∈ (s.queue ++ [(s.now + timeout, k)]).head? at hx
    show ∃ e ∈ (if s.queue.isEmpty then (s.now + timeout) :: s.pending else s.pending), e ≤ x.1
    cases hqueue : s.queue with
    | nil =>
      rw [hqueue] at hx
      obtain rfl := Option.some.inj hx
      exact ⟨s.now + timeout, mem_cons_self, Nat.le_refl _⟩
    | cons first rest =>
      rw [hqueue] at hx
      exact h.served x (hqueue ▸ hx)

theorem Within.set (h : Within timeout s) (k : κ) : Within timeout (s.set timeout k) := by
  intro x hx
  rcases mem_append.mp hx with hx | hx
  · exact h x hx
  · rw [mem_singleton.mp hx]
    exact le_refl _

theorem Sound.remove (h : Sound s) (p : Nat × κ → Bool) : Sound (s.remove p) where
  sorted := h.sorted.filter _
  waiting x hx := h.waiting x (mem_of_mem_filter hx)
  ahead := h.ahead
  served x hx := by
    have hmem : x ∈ s.queue := mem_of_mem_filter (mem_of_mem_head? hx)
    obtain ⟨first, hfirst⟩ : ∃ first, first ∈ s.queue.head? := by
      cases hqueue : s.queue with
      | nil => rw [hqueue] at hmem; exact absurd hmem not_mem_nil
      | cons first rest => exact ⟨first, rfl⟩
    obtain ⟨e, he, hle⟩ := h.served first hfirst
    exact ⟨e, he, hle.trans (h.head_le hfirst hmem)⟩

theorem Within.remove (h : Within timeout s) (p : Nat × κ → Bool) :
    Within timeout (s.remove p) := fun x hx => h x (mem_of_mem_filter hx)

/-- The clock does not go past an event, nor past a deadline. -/
theorem Sound.wait (h : Sound s) {time : Nat} (htime : ∀ e ∈ s.pending, time ≤ e) :
    Sound (s.wait time) where
  sorted := h.sorted
  waiting x hx := by
    cases hqueue : s.queue with
    | nil => exact absurd (hqueue ▸ hx) not_mem_nil
    | cons first rest =>
      have hfirst : first ∈ s.queue.head? := hqueue ▸ rfl
      obtain ⟨e, he, hle⟩ := h.served first hfirst
      exact ((htime e he).trans hle).trans (h.head_le hfirst hx)
  ahead := htime
  served := h.served

theorem Within.wait (h : Within timeout s) {time : Nat} (hle : s.now ≤ time) :
    Within timeout (s.wait time) :=
  fun x hx => (h x hx).trans (Nat.add_le_add_right hle timeout)

theorem Sound.fire (h : Sound s) : Sound s.fire where
  sorted := h.sorted.sublist (dropWhile_sublist _)
  waiting x hx := h.waiting x ((dropWhile_sublist _).subset hx)
  ahead e he := by
    rcases mem_append.mp he with he | he
    · obtain ⟨x, hx, rfl⟩ := Option.map_eq_some_iff.mp (Option.mem_toList.mp he)
      exact h.waiting x ((dropWhile_sublist _).subset (mem_of_mem_head? hx))
    · exact h.ahead e (mem_of_mem_erase he)
  served x hx := by
    refine ⟨x.1, mem_append_left _ (Option.mem_toList.mpr ?_), le_refl _⟩
    exact Option.map_eq_some_iff.mpr ⟨x, hx, rfl⟩

theorem Within.fire (h : Within timeout s) : Within timeout s.fire :=
  fun x hx => h x ((dropWhile_sublist _).subset hx)

end Deadlines

end DeadlineQueue
