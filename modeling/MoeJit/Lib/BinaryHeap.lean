import Mathlib.Order.Lattice
import Mathlib.Tactic.Common

/-!
# Binary heaps

Values at the places `1` to `n`, the parent of `i` at `i / 2`. A place whose value may be too small
for its parent is exchanged with the parent (`UpOrder`), one whose value may be too large with its
smallest child (`DownOrder`); either way the rest stays in order.
-/

section BinaryHeap

variable {κ : Type*} {a : Nat → κ} {n i m : Nat}

def exchanged (a : Nat → κ) (i j : Nat) : Nat → κ :=
  fun k => if k = i then a j else if k = j then a i else a k

@[simp] theorem exchanged_left (j : Nat) : exchanged a i j i = a j := if_pos rfl

theorem exchanged_right {j : Nat} : exchanged a i j j = a i := by
  unfold exchanged
  split
  · next heq => rw [heq]
  · rw [if_pos rfl]

theorem exchanged_other {j k : Nat} (hi : k ≠ i) (hj : k ≠ j) : exchanged a i j k = a k := by
  rw [exchanged, if_neg hi, if_neg hj]

variable [LinearOrder κ]

/-- No value is less than its parent. -/
def IsHeap (a : Nat → κ) (n : Nat) : Prop := ∀ i, 2 ≤ i → i ≤ n → a (i / 2) ≤ a i

theorem IsHeap.root_le (h : IsHeap a n) (hpos : 1 ≤ i) (hle : i ≤ n) : a 1 ≤ a i := by
  induction i using Nat.strongRecOn with
  | ind i ih =>
    cases Nat.lt_or_eq_of_le hpos with
    | inl hlt =>
      have hparent := ih (i / 2) (by omega) (by omega) (by omega)
      exact le_trans hparent (h i hlt hle)
    | inr heq => exact heq ▸ le_refl _

theorem IsHeap.congr {b : Nat → κ} (h : IsHeap a n) (heq : ∀ k ≤ n, b k = a k) : IsHeap b n := by
  intro i hi hin
  rw [heq i hin, heq (i / 2) (by omega)]
  exact h i hi hin

/-- All but the place are in order with their parents, and its children with its parent. -/
structure UpOrder (a : Nat → κ) (n i : Nat) : Prop where
  others : ∀ j, 2 ≤ j → j ≤ n → j ≠ i → a (j / 2) ≤ a j
  grand : 2 ≤ i → ∀ c, c ≤ n → c / 2 = i → a (i / 2) ≤ a c

theorem UpOrder.exchange (h : UpOrder a n i) (hi : 2 ≤ i) (hle : i ≤ n) (hlt : a i < a (i / 2)) :
    UpOrder (exchanged a i (i / 2)) n (i / 2) := by
  constructor
  · intro j hj hjn hne
    cases Nat.decEq j i with
    | isTrue heq =>
      subst heq
      rw [exchanged_left, exchanged_right]
      exact le_of_lt hlt
    | isFalse hji =>
      rw [exchanged_other hji hne]
      cases Nat.decEq (j / 2) i with
      | isTrue heq =>
        rw [heq, exchanged_left]
        exact h.grand hi j hjn heq
      | isFalse hparent =>
        have hold := h.others j hj hjn hji
        cases Nat.decEq (j / 2) (i / 2) with
        | isTrue heq =>
          rw [heq] at hold ⊢
          rw [exchanged_right]
          exact le_trans (le_of_lt hlt) hold
        | isFalse hother =>
          rw [exchanged_other hparent hother]
          exact hold
  · intro hgrand c hcn hc
    have hup := h.others (i / 2) hgrand (by omega) (by omega)
    rw [exchanged_other (k := i / 2 / 2) (by omega) (by omega)]
    cases Nat.decEq c i with
    | isTrue heq =>
      rw [heq, exchanged_left]
      exact hup
    | isFalse hci =>
      rw [exchanged_other hci (by omega)]
      have hold := h.others c (by omega) hcn hci
      rw [hc] at hold
      exact le_trans hup hold

theorem UpOrder.heap (h : UpOrder a n i) (hstop : 2 ≤ i → a (i / 2) ≤ a i) : IsHeap a n := by
  intro j hj hjn
  cases Nat.decEq j i with
  | isTrue heq => exact heq ▸ hstop (heq ▸ hj)
  | isFalse hne => exact h.others j hj hjn hne

/-- A value is put behind the others. -/
theorem IsHeap.upOrder (h : IsHeap a n) : UpOrder a (n + 1) (n + 1) := by
  constructor
  · intro j hj hjn hne
    exact h j hj (by omega)
  · intro _ c hcn hc
    omega

/-- All but the children of the place are in order with their parents, and they with the place's
parent. -/
structure DownOrder (a : Nat → κ) (n i : Nat) : Prop where
  others : ∀ j, 2 ≤ j → j ≤ n → j / 2 ≠ i → a (j / 2) ≤ a j
  grand : 2 ≤ i → ∀ c, c ≤ n → c / 2 = i → a (i / 2) ≤ a c

theorem DownOrder.congr {b : Nat → κ} (h : DownOrder a n i) (heq : ∀ k ≤ n, b k = a k) :
    DownOrder b n i := by
  constructor
  · intro j hj hjn hne
    rw [heq j hjn, heq (j / 2) (by omega)]
    exact h.others j hj hjn hne
  · intro hi c hcn hc
    rw [heq c hcn, heq (i / 2) (by omega)]
    exact h.grand hi c hcn hc

theorem DownOrder.exchange (h : DownOrder a n i) (hi : 1 ≤ i) (hm : m / 2 = i) (hmn : m ≤ n)
    (hmin : ∀ c, c ≤ n → c / 2 = i → a m ≤ a c) (hle : a m ≤ a i) :
    DownOrder (exchanged a i m) n m := by
  constructor
  · intro j hj hjn hparent
    cases Nat.decEq j i with
    | isTrue heq =>
      subst heq
      rw [exchanged_left, exchanged_other (by omega) hparent]
      exact h.grand hj m hmn hm
    | isFalse hji =>
      cases Nat.decEq (j / 2) i with
      | isTrue heq =>
        rw [heq, exchanged_left]
        cases Nat.decEq j m with
        | isTrue hjm =>
          rw [hjm, exchanged_right]
          exact hle
        | isFalse hjm =>
          rw [exchanged_other hji hjm]
          exact hmin j hjn heq
      | isFalse hother =>
        have hold := h.others j hj hjn hother
        have hjm : j ≠ m := fun heq => hother (heq ▸ hm)
        rw [exchanged_other hother hparent, exchanged_other hji hjm]
        exact hold
  · intro hm2 c hcn hc
    rw [hm, exchanged_left, exchanged_other (by omega) (by omega)]
    have hold := h.others c (by omega) hcn (by omega)
    rw [hc] at hold
    exact hold

theorem DownOrder.heap (h : DownOrder a n i) (hstop : ∀ c, c ≤ n → c / 2 = i → a i ≤ a c) :
    IsHeap a n := by
  intro j hj hjn
  cases Nat.decEq (j / 2) i with
  | isTrue heq => exact heq ▸ hstop j hjn heq
  | isFalse hne => exact h.others j hj hjn hne

/-- The last value takes the place of another one, when it is not less than that one's parent. -/
theorem IsHeap.downOrder (h : IsHeap a (n + 1)) (hparent : 2 ≤ i → a (i / 2) ≤ a (n + 1)) :
    DownOrder (exchanged a i (n + 1)) n i := by
  have hhigher {k : Nat} (hk : k ≤ n) (hne : k ≠ i) : exchanged a i (n + 1) k = a k :=
    exchanged_other hne (by omega)
  constructor
  · intro j hj hjn hne
    rw [hhigher (by omega) hne]
    cases Nat.decEq j i with
    | isTrue heq =>
      rw [heq, exchanged_left]
      exact hparent (heq ▸ hj)
    | isFalse hji =>
      rw [hhigher hjn hji]
      exact h j hj (by omega)
  · intro hi c hcn hc
    rw [hhigher (by omega) (by omega), hhigher hcn (by omega)]
    have hchild := h c (by omega) (by omega)
    rw [hc] at hchild
    exact le_trans (h i hi (by omega)) hchild

end BinaryHeap
