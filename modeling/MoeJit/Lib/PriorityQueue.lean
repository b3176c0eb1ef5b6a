import Mathlib.Data.List.Perm.Basic

/-!
# Priority queues

`std::priority_queue`: what is on top is an element that comes after no other one. Which one it is
when there are several, and how the elements are laid out, is left to the implementation.

`drain_spec`: elements are taken out until one passes a test, and those before it are set aside.
-/

/-- An implementation; `after a b` says that `a` comes after `b`. -/
structure PriorityQueue (α : Type) (after : α → α → Prop) where
  Queue : Type
  elements : Queue → List α
  push : Queue → α → Queue
  top : Queue → Option α
  pop : Queue → Queue
  elements_push : ∀ q a, (elements (push q a)).Perm (a :: elements q)
  top_eq_none : ∀ q, top q = none → elements q = []
  elements_pop : ∀ q a, top q = some a → (elements q).Perm (a :: elements (pop q))
  top_first : ∀ q a, top q = some a → ∀ b ∈ elements q, ¬after a b

namespace PriorityQueue

variable {α : Type} {after : α → α → Prop} (Q : PriorityQueue α after)

/-- What is left when elements have been taken out. -/
structure Drained where
  found : Option α
  queue : Q.Queue
  aside : List α

/-- At most `fuel` elements are taken out, up to the first that passes the test. -/
def drain (test : α → Bool) : Nat → Q.Queue → List α → Q.Drained
  | 0, queue, aside => ⟨none, queue, aside⟩
  | fuel + 1, queue, aside =>
    match Q.top queue with
    | none => ⟨none, queue, aside⟩
    | some a =>
      if test a then ⟨some a, Q.pop queue, aside⟩
      else drain test fuel (Q.pop queue) (aside ++ [a])

def pushAll (queue : Q.Queue) (list : List α) : Q.Queue := list.foldl Q.push queue

theorem elements_pushAll (queue : Q.Queue) (list : List α) :
    (Q.elements (Q.pushAll queue list)).Perm (Q.elements queue ++ list) := by
  induction list generalizing queue with
  | nil => exact .of_eq (List.append_nil _).symm
  | cons a list ih =>
    have hpush : (Q.elements (Q.push queue a) ++ list).Perm (a :: Q.elements queue ++ list) :=
      (Q.elements_push queue a).append_right list
    exact (ih (Q.push queue a)).trans (hpush.trans List.perm_middle.symm)

/-- With enough fuel: an element that passes the test and comes after no other one that does, or
none passes. Nothing else is lost. -/
theorem drain_spec (test : α → Bool) {fuel : Nat} {queue : Q.Queue} (aside : List α)
    (hfuel : (Q.elements queue).length ≤ fuel) :
    (∀ a, (Q.drain test fuel queue aside).found = some a →
      test a = true ∧ (∀ b ∈ Q.elements queue, test b = true → ¬after a b) ∧
      (Q.elements queue ++ aside).Perm (a :: (Q.elements (Q.drain test fuel queue aside).queue ++
        (Q.drain test fuel queue aside).aside))) ∧
    ((Q.drain test fuel queue aside).found = none → (∀ b ∈ Q.elements queue, test b = false) ∧
      (Q.elements queue ++ aside).Perm (Q.elements (Q.drain test fuel queue aside).queue ++
        (Q.drain test fuel queue aside).aside)) := by
  induction fuel generalizing queue aside with
  | zero =>
    have hnil : Q.elements queue = [] := List.length_eq_zero_iff.mp (Nat.le_zero.mp hfuel)
    refine ⟨fun a ha => (nomatch ha), fun _ => ⟨fun b hb => ?_, .refl _⟩⟩
    rw [hnil] at hb
    cases hb
  | succ fuel ih =>
    unfold drain
    split
    · next htop =>
      have hnil := Q.top_eq_none queue htop
      refine ⟨fun a ha => (nomatch ha), fun _ => ⟨fun b hb => ?_, .refl _⟩⟩
      rw [hnil] at hb
      cases hb
    · next a htop =>
      have hpop := Q.elements_pop queue a htop
      split
      · next htest =>
        refine ⟨fun a' ha' => ?_, fun hnone => (nomatch hnone)⟩
        obtain rfl : a = a' := Option.some.inj ha'
        exact ⟨htest, fun b hb _ => Q.top_first queue a htop b hb, hpop.append_right aside⟩
      · next htest =>
        have htest : test a = false := eq_false_of_ne_true htest
        have hless : (Q.elements (Q.pop queue)).length ≤ fuel := by
          rw [hpop.length_eq, List.length_cons] at hfuel
          exact Nat.le_of_succ_le_succ hfuel
        -- the element that is set aside fails the test, so those that pass are all left
        have hperm : (Q.elements queue ++ aside).Perm (Q.elements (Q.pop queue) ++ (aside ++ [a])) := by
          rw [← List.append_assoc]
          exact (hpop.append_right aside).trans (List.perm_append_singleton _ _).symm
        obtain ⟨hsome, hnone⟩ := ih (aside ++ [a]) hless
        refine ⟨fun a' ha' => ?_, fun hn => ?_⟩
        · obtain ⟨htest', hfirst, hrest⟩ := hsome a' ha'
          refine ⟨htest', fun b hb hpass => ?_, hperm.trans hrest⟩
          rcases List.mem_cons.mp (hpop.mem_iff.mp hb) with rfl | hb
          · rw [htest] at hpass
            cases hpass
          · exact hfirst b hb hpass
        · obtain ⟨hall, hrest⟩ := hnone hn
          refine ⟨fun b hb => ?_, hperm.trans hrest⟩
          rcases List.mem_cons.mp (hpop.mem_iff.mp hb) with rfl | hb
          · exact htest
          · exact hall b hb

end PriorityQueue
