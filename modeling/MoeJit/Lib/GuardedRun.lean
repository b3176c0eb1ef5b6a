import Mathlib.Data.List.Infix

/-!
# Guarded runs

Runs of a step function with a condition on each step, evaluated in the state the
step starts from.

`forall_prefix_iff_guarded`: when an invariant is kept by the steps that meet the
condition, gives what is wanted, and leaves none of the other steps harmless, what
is wanted holds all along a run exactly when every step meets the condition.
-/

section GuardedRun

variable {σ α : Type*} (step : σ → α → σ) (guard : σ → α → Prop)

/-- Every step of the run from `s` meets the condition. -/
def Guarded : σ → List α → Prop
  | _, [] => True
  | s, a :: acts => guard s a ∧ Guarded (step s a) acts

variable {step guard} {Inv Good : σ → Prop}

theorem guarded_append {s : σ} {acts rest : List α} : Guarded step guard s (acts ++ rest) ↔
      Guarded step guard s acts ∧ Guarded step guard (acts.foldl step s) rest := by
  induction acts generalizing s with
  | nil => exact (iff_of_eq (true_and _)).symm
  | cons a acts ih =>
    show guard s a ∧ Guarded step guard (step s a) (acts ++ rest) ↔ _
    rw [ih, ← and_assoc]
    rfl

theorem Guarded.inv_foldl (hstep : ∀ s a, Inv s → guard s a → Inv (step s a)) {s : σ}
    {acts : List α} (h : Guarded step guard s acts) (hs : Inv s) : Inv (acts.foldl step s) := by
  induction acts generalizing s with
  | nil => exact hs
  | cons a acts ih => exact ih h.2 (hstep s a hs h.1)

theorem forall_prefix_iff_guarded (hstep : ∀ s a, Inv s → guard s a → Inv (step s a))
    (hgood : ∀ s, Inv s → Good s) (hbad : ∀ s a, Inv s → ¬guard s a → ¬Good (step s a))
    {s : σ} (hs : Inv s) (acts : List α) :
    (∀ pre, pre <+: acts → Good (pre.foldl step s)) ↔ Guarded step guard s acts := by
  induction acts generalizing s with
  | nil =>
    refine iff_of_true (fun pre hpre => ?_) trivial
    rw [List.prefix_nil.mp hpre]
    exact hgood s hs
  | cons a acts ih =>
    constructor
    · intro h
      have hguard : guard s a := by
        by_contra hno
        exact hbad s a hs hno (h [a] (List.prefix_append [a] acts))
      refine ⟨hguard, (ih (hstep s a hs hguard)).mp fun pre hpre => ?_⟩
      exact h (a :: pre) ((List.prefix_cons_inj a).mpr hpre)
    · rintro ⟨hguard, h⟩ pre hpre
      cases pre with
      | nil => exact hgood s hs
      | cons b pre =>
        obtain ⟨rfl, htail⟩ := List.cons_prefix_cons.mp hpre
        exact (ih (hstep s b hs hguard)).mpr h pre htail

end GuardedRun
