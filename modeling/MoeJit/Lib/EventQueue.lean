import Mathlib.Data.List.Basic

/-!
# Event queues

The queue of a discrete-event simulation: events with times, kept in order, a new
one after all that are as early. The first is the next to run, so that events of
one time run in the order in which they were scheduled.

`Followed a b` says that wherever `a` stands, `b` is still to come. Scheduling
anything but another `a` keeps it, and scheduling `b` in time establishes it
(`followed_insertEvent_self`).
-/

structure Event (κ : Type*) where
  time : Int
  what : κ
  deriving DecidableEq

/-- Events in order. -/
structure EventQueue (κ : Type*) where
  events : List (Event κ)
  sorted : events.Pairwise fun a b => a.time ≤ b.time

namespace EventQueue

open List

variable {κ : Type*}

def empty : EventQueue κ := ⟨[], List.Pairwise.nil⟩

/-- The event goes before the first that is later. -/
def insertEvent (x : Event κ) : List (Event κ) → List (Event κ)
  | [] => [x]
  | e :: es => if x.time < e.time then x :: e :: es else e :: insertEvent x es

variable {a b e x y : Event κ} {es : List (Event κ)}

@[simp] theorem mem_insertEvent : y ∈ insertEvent x es ↔ y = x ∨ y ∈ es := by
  induction es with
  | nil => rw [insertEvent, mem_singleton, or_iff_left not_mem_nil]
  | cons e es ih =>
    rw [insertEvent]
    split
    · exact mem_cons
    · rw [mem_cons, ih, mem_cons]
      exact or_left_comm

theorem sorted_insertEvent (h : es.Pairwise fun a b => a.time ≤ b.time) :
    (insertEvent x es).Pairwise fun a b => a.time ≤ b.time := by
  induction h with
  | nil => exact pairwise_singleton _ _
  | @cons e es hle h ih =>
    rw [insertEvent]
    split
    · next hlt =>
      refine pairwise_cons.mpr ⟨fun y hy => ?_, pairwise_cons.mpr ⟨hle, h⟩⟩
      cases mem_cons.mp hy with
      | inl heq => exact heq ▸ Int.le_of_lt hlt
      | inr hmem => exact Int.le_trans (Int.le_of_lt hlt) (hle y hmem)
    · next hge =>
      refine pairwise_cons.mpr ⟨fun y hy => ?_, ih⟩
      cases mem_insertEvent.mp hy with
      | inl heq => exact heq ▸ Int.not_lt.mp hge
      | inr hmem => exact hle y hmem

def schedule (q : EventQueue κ) (x : Event κ) : EventQueue κ where
  events := insertEvent x q.events
  sorted := sorted_insertEvent q.sorted

/-- The queue without its first event. -/
def tail (q : EventQueue κ) : EventQueue κ where
  events := q.events.tail
  sorted := q.sorted.tail

@[simp] theorem mem_schedule {q : EventQueue κ} :
    y ∈ (q.schedule x).events ↔ y = x ∨ y ∈ q.events := mem_insertEvent

theorem le_of_head {q : EventQueue κ} (h : q.events = e :: es) (hy : y ∈ q.events) :
    e.time ≤ y.time := by
  have hsorted := q.sorted
  rw [h] at hsorted hy
  cases mem_cons.mp hy with
  | inl heq => exact heq ▸ Int.le_refl _
  | inr hmem => exact (pairwise_cons.mp hsorted).1 y hmem

theorem tail_events {q : EventQueue κ} (h : q.events = e :: es) : q.tail.events = es :=
  congrArg List.tail h

/-- Every `a` has a `b` after it. -/
def Followed (a b : Event κ) : List (Event κ) → Prop
  | [] => True
  | e :: es => (e = a → b ∈ es) ∧ Followed a b es

theorem followed_of_not_mem (h : a ∉ es) : Followed a b es := by
  induction es with
  | nil => trivial
  | cons e es ih =>
    rw [mem_cons, not_or] at h
    exact ⟨fun heq => absurd heq.symm h.1, ih h.2⟩

theorem Followed.insertEvent (h : Followed a b es) (hne : x ≠ a) :
    Followed a b (insertEvent x es) := by
  induction es with
  | nil => exact ⟨fun heq => absurd heq hne, trivial⟩
  | cons e es ih =>
    rw [EventQueue.insertEvent]
    split
    · exact ⟨fun heq => absurd heq hne, h⟩
    · exact ⟨fun heq => mem_insertEvent.mpr (.inr (h.1 heq)), ih h.2⟩

theorem followed_insertEvent_self (hsorted : es.Pairwise fun a b => a.time ≤ b.time)
    (hle : a.time ≤ b.time) (hne : b ≠ a) : Followed a b (EventQueue.insertEvent b es) := by
  induction hsorted with
  | nil => exact ⟨fun heq => absurd heq hne, trivial⟩
  | @cons e es hes _ ih =>
    rw [EventQueue.insertEvent]
    split
    · next hlt =>
      -- all that follows is later than `b`
      refine ⟨fun heq => absurd heq hne, followed_of_not_mem fun hmem => ?_⟩
      have hea : e.time ≤ a.time := by
        cases mem_cons.mp hmem with
        | inl heq => exact heq ▸ Int.le_refl _
        | inr hmem => exact hes a hmem
      exact absurd (Int.lt_of_lt_of_le hlt hea) (Int.not_lt.mpr hle)
    · exact ⟨fun _ => mem_insertEvent.mpr (.inl rfl), ih⟩

end EventQueue
