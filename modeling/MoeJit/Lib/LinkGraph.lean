import Mathlib.Algebra.Order.BigOperators.Group.Finset

/-!
# Links that go up and down

A symmetric Boolean relation `up` between nodes, changed one link at a time.
`between up A B` counts the links that are up between two disjoint sets of nodes;
the degree of a node into a set is the case of a single node. An exchange takes
two links down and two up that join the same four nodes another way
(`between_exchange`).
-/

namespace LinkGraph

variable {α : Type*} [DecidableEq α]

/-- The link between `a` and `b` is set to `v`, in both directions. -/
def setLink (up : α → α → Bool) (a b : α) (v : Bool) : α → α → Bool := fun x y =>
  if (x = a ∧ y = b) ∨ (x = b ∧ y = a) then v else up x y

/-- The link between `a` and `b` joins a node of `A` to one of `B`. -/
def Joins (A B : Finset α) (a b : α) : Prop := (a ∈ A ∧ b ∈ B) ∨ (b ∈ A ∧ a ∈ B)

instance (A B : Finset α) (a b : α) : Decidable (Joins A B a b) :=
  inferInstanceAs (Decidable (_ ∨ _))

/-- The number of links that are up between `A` and `B`. -/
def between (up : α → α → Bool) (A B : Finset α) : Nat :=
  ∑ p ∈ A ×ˢ B, (up p.1 p.2).toNat

variable {up : α → α → Bool} {A B : Finset α} {a b c d : α} {v : Bool}

@[simp] theorem setLink_self : setLink up a b v a b = v := if_pos (.inl ⟨rfl, rfl⟩)

theorem setLink_of_ne {x y : α} (h : ¬ ((x = a ∧ y = b) ∨ (x = b ∧ y = a))) :
    setLink up a b v x y = up x y := if_neg h

theorem setLink_comm : setLink up a b v = setLink up b a v :=
  funext fun _ => funext fun _ => if_congr Or.comm rfl rfl

theorem setLink_symm (h : ∀ x y, up x y = up y x) (x y : α) :
    setLink up a b v x y = setLink up a b v y x := by
  unfold setLink
  rw [h x y]
  refine if_congr ?_ rfl rfl
  rw [Or.comm, and_comm (a := x = b), and_comm (a := x = a)]

omit [DecidableEq α] in
theorem between_comm (hsymm : ∀ x y, up x y = up y x) : between up A B = between up B A := by
  unfold between
  rw [Finset.sum_product, Finset.sum_product_right]
  exact Finset.sum_congr rfl fun x _ => Finset.sum_congr rfl fun y _ => by rw [hsymm x y]

/-- One link changes the count by itself, if it joins the two sets. -/
theorem between_setLink (hdisj : Disjoint A B) (hsymm : ∀ x y, up x y = up y x) :
    between (setLink up a b v) A B + (if Joins A B a b then (up a b).toNat else 0) =
      between up A B + if Joins A B a b then v.toNat else 0 := by
  -- either way round, one pair of the product changes
  have hone : ∀ {a b : α}, a ∈ A → b ∈ B →
      between (setLink up a b v) A B + (up a b).toNat = between up A B + v.toNat := by
    intro a b ha hb
    have hmem : (a, b) ∈ A ×ˢ B := Finset.mk_mem_product ha hb
    have hrest : ∑ p ∈ (A ×ˢ B).erase (a, b), (setLink up a b v p.1 p.2).toNat =
        ∑ p ∈ (A ×ˢ B).erase (a, b), (up p.1 p.2).toNat := by
      refine Finset.sum_congr rfl fun p hp => ?_
      obtain ⟨hne, hp⟩ := Finset.mem_erase.mp hp
      obtain ⟨hpA, -⟩ := Finset.mem_product.mp hp
      rw [setLink_of_ne]
      rintro (⟨h₁, h₂⟩ | ⟨h₁, -⟩)
      · exact hne (Prod.ext h₁ h₂)
      · exact Finset.disjoint_left.mp hdisj hpA (h₁ ▸ hb)
    have hnew := Finset.sum_erase_add (A ×ˢ B) (fun p => (setLink up a b v p.1 p.2).toNat) hmem
    have hold := Finset.sum_erase_add (A ×ˢ B) (fun p => (up p.1 p.2).toNat) hmem
    simp only [setLink_self] at hnew
    rw [between, between, ← hnew, ← hold, hrest]
    exact Nat.add_right_comm _ _ _
  by_cases hjoins : Joins A B a b
  · rw [if_pos hjoins, if_pos hjoins]
    rcases hjoins with ⟨ha, hb⟩ | ⟨hb, ha⟩
    · exact hone ha hb
    · rw [setLink_comm, hsymm a b]
      exact hone hb ha
  · rw [if_neg hjoins, if_neg hjoins]
    refine congrArg (· + 0) (Finset.sum_congr rfl fun p hp => ?_)
    obtain ⟨hpA, hpB⟩ := Finset.mem_product.mp hp
    rw [setLink_of_ne]
    rintro (⟨h₁, h₂⟩ | ⟨h₁, h₂⟩)
    · exact hjoins (.inl ⟨h₁ ▸ hpA, h₂ ▸ hpB⟩)
    · exact hjoins (.inr ⟨h₁ ▸ hpA, h₂ ▸ hpB⟩)

/-- The links `a b` and `c d` up, `a c` and `b d` down. -/
def exchange (up : α → α → Bool) (a b c d : α) : α → α → Bool :=
  setLink (setLink (setLink (setLink up a b true) c d true) a c false) b d false

theorem nodup_four_iff {α : Type*} {a b c d : α} :
    [a, b, c, d].Nodup ↔ (a ≠ b ∧ a ≠ c ∧ a ≠ d) ∧ (b ≠ c ∧ b ≠ d) ∧ c ≠ d := by
  simp only [List.nodup_cons, List.mem_cons, List.not_mem_nil, or_false, not_or, List.nodup_nil,
    and_true, not_false_eq_true, ne_eq]

/-- Four different nodes, joined crosswise. -/
structure Exchangeable (up : α → α → Bool) (a b c d : α) : Prop where
  nodup : [a, b, c, d].Nodup
  down₁ : up a b = false
  down₂ : up c d = false
  up₁ : up a c = true
  up₂ : up b d = true

theorem between_exchange (hdisj : Disjoint A B) (hsymm : ∀ x y, up x y = up y x)
    (h : Exchangeable up a b c d) :
    between (exchange up a b c d) A B +
        ((if Joins A B a c then 1 else 0) + if Joins A B b d then 1 else 0) =
      between up A B + ((if Joins A B a b then 1 else 0) + if Joins A B c d then 1 else 0) := by
  obtain ⟨⟨hab, hac, had⟩, ⟨hbc, hbd⟩, hcd⟩ := nodup_four_iff.mp h.nodup
  have hsymm₁ := setLink_symm (a := a) (b := b) (v := true) hsymm
  have hsymm₂ := setLink_symm (a := c) (b := d) (v := true) hsymm₁
  have hsymm₃ := setLink_symm (a := a) (b := c) (v := false) hsymm₂
  have h₁ := between_setLink (a := a) (b := b) (v := true) hdisj hsymm
  have h₂ := between_setLink (a := c) (b := d) (v := true) hdisj hsymm₁
  have h₃ := between_setLink (a := a) (b := c) (v := false) hdisj hsymm₂
  have h₄ := between_setLink (a := b) (b := d) (v := false) hdisj hsymm₃
  -- no link is changed twice
  have e₂ : setLink up a b true c d = false := by
    rw [setLink_of_ne (by simp [Ne.symm hac, Ne.symm hbc]), h.down₂]
  have e₃ : setLink (setLink up a b true) c d true a c = true := by
    rw [setLink_of_ne (by simp [hac, had]), setLink_of_ne (by simp [Ne.symm hbc, Ne.symm hac]), h.up₁]
  have e₄ : setLink (setLink (setLink up a b true) c d true) a c false b d = true := by
    rw [setLink_of_ne (by simp [Ne.symm hab, hbc]), setLink_of_ne (by simp [hbc, hbd]),
      setLink_of_ne (by simp [Ne.symm hab, Ne.symm had]), h.up₂]
  rw [h.down₁] at h₁
  rw [e₂] at h₂
  rw [e₃] at h₃
  rw [e₄] at h₄
  simp only [Bool.toNat_true, Bool.toNat_false, ite_self, Nat.add_zero] at h₁ h₂ h₃ h₄
  unfold exchange
  omega

end LinkGraph
