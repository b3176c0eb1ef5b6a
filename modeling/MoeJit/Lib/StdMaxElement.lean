import Mathlib.Data.List.Perm.Basic
import Mathlib.Order.Lattice

/-!
# `std::max_element`

The scan of `std::max_element`: the first element that no later one exceeds.
For a comparator that is a strict total order on the elements the result is the
same for every order in which a container yields them (`maxElement_perm`).
`std::min_element` is the scan with the comparator turned round.
-/

namespace StdMaxElement

variable {α : Type*} {lt : α → α → Prop}

/-- The loop of the scan, with the largest element so far. -/
def scan (lt : α → α → Prop) [DecidableRel lt] (largest : α) (l : List α) : α :=
  l.foldl (fun largest x => if lt largest x then x else largest) largest

def maxElement (lt : α → α → Prop) [DecidableRel lt] : List α → Option α
  | [] => none
  | x :: l => some (scan lt x l)

/-- A strict total order. -/
structure IsStrictTotal (lt : α → α → Prop) : Prop where
  irrefl : ∀ a, ¬ lt a a
  trans : ∀ a b c, lt a b → lt b c → lt a c
  total : ∀ a b, ¬ lt a b → ¬ lt b a → a = b

theorem IsStrictTotal.not_lt_trans (h : IsStrictTotal lt) {a b c : α} (hab : ¬ lt a b)
    (hbc : ¬ lt b c) : ¬ lt a c := by
  intro hac
  by_cases hba : lt b a
  · exact hbc (h.trans b a c hba hac)
  · exact hbc (h.total a b hab hba ▸ hac)

theorem IsStrictTotal.flip (h : IsStrictTotal lt) : IsStrictTotal fun a b => lt b a where
  irrefl := h.irrefl
  trans a b c hab hbc := h.trans c b a hbc hab
  total a b hab hba := h.total a b hba hab

variable [DecidableRel lt]

theorem scan_spec (h : IsStrictTotal lt) (largest : α) (l : List α) :
    scan lt largest l ∈ largest :: l ∧ ∀ x ∈ largest :: l, ¬ lt (scan lt largest l) x := by
  induction l generalizing largest with
  | nil =>
    refine ⟨List.mem_cons_self, fun x hx => ?_⟩
    obtain rfl := List.mem_singleton.mp hx
    exact h.irrefl _
  | cons y l ih =>
    have hstep : scan lt largest (y :: l) = scan lt (if lt largest y then y else largest) l := rfl
    rw [hstep]
    -- the larger of the first two starts the rest of the scan
    have hbest : ¬ lt (if lt largest y then y else largest) largest ∧
        ¬ lt (if lt largest y then y else largest) y := by
      split
      · next hlt => exact ⟨fun hgt => h.irrefl _ (h.trans _ _ _ hlt hgt), h.irrefl _⟩
      · next hnot => exact ⟨h.irrefl _, hnot⟩
    obtain ⟨hmem, hmax⟩ := ih (if lt largest y then y else largest)
    have hself := hmax _ List.mem_cons_self
    constructor
    · rcases List.mem_cons.mp hmem with heq | hl
      · rw [heq]
        split <;> simp
      · exact List.mem_cons_of_mem _ (List.mem_cons_of_mem _ hl)
    · intro x hx
      rcases List.mem_cons.mp hx with rfl | hx
      · exact h.not_lt_trans hself hbest.1
      · rcases List.mem_cons.mp hx with rfl | hx
        · exact h.not_lt_trans hself hbest.2
        · exact hmax x (List.mem_cons_of_mem _ hx)

theorem maxElement_eq_some (h : IsStrictTotal lt) {l : List α} {m : α} :
    maxElement lt l = some m ↔ m ∈ l ∧ ∀ x ∈ l, ¬ lt m x := by
  cases l with
  | nil => simp [maxElement]
  | cons y l =>
    obtain ⟨hmem, hmax⟩ := scan_spec h y l
    rw [maxElement, Option.some.injEq]
    constructor
    · rintro rfl
      exact ⟨hmem, hmax⟩
    · rintro ⟨hmem', hmax'⟩
      exact h.total _ _ (hmax m hmem') (hmax' _ hmem)

theorem maxElement_perm (h : IsStrictTotal lt) {l l' : List α} (hperm : l.Perm l') :
    maxElement lt l = maxElement lt l' := by
  refine Option.ext fun m => ?_
  rw [maxElement_eq_some h, maxElement_eq_some h, hperm.mem_iff]
  simp only [hperm.mem_iff]

theorem maxElement_isSome {l : List α} (h : l ≠ []) : (maxElement lt l).isSome := by
  cases l with
  | nil => exact absurd rfl h
  | cons x l => rfl

end StdMaxElement
