import MoeJit.Lib.FallibleRun
import Mathlib.Data.List.Forall2

/-!
# Two runs

Two runs of step functions that can fail, compared action by action: both fail in the same way or
both return related values (`Alike`). What one step of both keeps is kept by the whole runs
(`outcomes_alike`).
-/

section TwoRuns

variable {α β ε σ τ ρ π : Type}

/-- The same failure, or values in the relation. -/
inductive Alike (R : α → β → Prop) : Except ε α → Except ε β → Prop
  | ok {a : α} {b : β} (h : R a b) : Alike R (.ok a) (.ok b)
  | error (e : ε) : Alike R (.error e) (.error e)

namespace Alike

variable {R : α → β → Prop} {x : Except ε α} {y : Except ε β}

theorem mono_of {R' : α → β → Prop} (h : Alike R x y)
    (hR : ∀ a b, x = .ok a → R a b → R' a b) : Alike R' x y := by
  cases h with
  | ok hab => exact .ok (hR _ _ rfl hab)
  | error e => exact .error e

theorem mono {R' : α → β → Prop} (h : Alike R x y) (hR : ∀ a b, R a b → R' a b) : Alike R' x y :=
  h.mono_of fun a b _ hab => hR a b hab

end Alike

/-- What the actions end with, up to the first one that fails. -/
def outcomes (perform : σ → α → Except ε (σ × ρ)) : σ → List α → List (Except ε (σ × ρ))
  | _, [] => []
  | s, a :: acts =>
    perform s a :: match perform s a with
      | .ok result => outcomes perform result.1 acts
      | .error _ => []

/-- The guard holds in every state in which an action is performed. -/
def Throughout (perform : σ → α → Except ε (σ × ρ)) (guard : σ → α → Prop) : σ → List α → Prop
  | _, [] => True
  | s, a :: acts =>
    guard s a ∧ match perform s a with
      | .ok result => Throughout perform guard result.1 acts
      | .error _ => True

instance decidableThroughout (perform : σ → α → Except ε (σ × ρ)) (guard : σ → α → Prop)
    [∀ s a, Decidable (guard s a)] : ∀ s acts, Decidable (Throughout perform guard s acts)
  | _, [] => isTrue trivial
  | s, a :: acts =>
    have : Decidable (match perform s a with
        | .ok result => Throughout perform guard result.1 acts
        | .error _ => True) :=
      match perform s a with
      | .ok result => decidableThroughout perform guard result.1 acts
      | .error _ => isTrue trivial
    inferInstanceAs (Decidable (guard s a ∧ match perform s a with
      | .ok result => Throughout perform guard result.1 acts
      | .error _ => True))

theorem outcomes_alike {perform : σ → α → Except ε (σ × ρ)} {perform' : τ → β → Except ε (τ × π)}
    {guard : σ → α → Prop} {guard' : τ → β → Prop} {f : α → β} {R : σ → τ → Prop}
    {S : ρ → π → Prop}
    (hstep : ∀ s t a, R s t → guard s a → guard' t (f a) →
      Alike (fun x y => R x.1 y.1 ∧ S x.2 y.2) (perform s a) (perform' t (f a)))
    (acts : List α) {s : σ} {t : τ} (hst : R s t) (hs : Throughout perform guard s acts)
    (ht : Throughout perform' guard' t (acts.map f)) :
    List.Forall₂ (Alike fun x y => R x.1 y.1 ∧ S x.2 y.2) (outcomes perform s acts)
      (outcomes perform' t (acts.map f)) := by
  induction acts generalizing s t with
  | nil => exact .nil
  | cons a acts ih =>
    obtain ⟨hguard, hrest⟩ := hs
    obtain ⟨hguard', hrest'⟩ := ht
    have hfirst := hstep s t a hst hguard hguard'
    rw [List.map_cons]
    unfold outcomes
    generalize perform s a = x, perform' t (f a) = y at hfirst hrest hrest'
    refine .cons hfirst ?_
    cases hfirst with
    | ok hxy => exact ih hxy.1 hrest hrest'
    | error => exact .nil

theorem throughout_true (perform : σ → α → Except ε (σ × ρ)) (s : σ) (acts : List α) :
    Throughout perform (fun _ _ => True) s acts := by
  induction acts generalizing s with
  | nil => trivial
  | cons a acts ih =>
    refine ⟨trivial, ?_⟩
    split
    · exact ih _
    · trivial

theorem outcomes_alike_same {perform : σ → α → Except ε (σ × ρ)}
    {perform' : τ → α → Except ε (τ × π)} {guard : σ → α → Prop} {R : σ → τ → Prop}
    {S : ρ → π → Prop}
    (hstep : ∀ s t a, R s t → guard s a →
      Alike (fun x y => R x.1 y.1 ∧ S x.2 y.2) (perform s a) (perform' t a))
    (acts : List α) {s : σ} {t : τ} (hst : R s t) (hs : Throughout perform guard s acts) :
    List.Forall₂ (Alike fun x y => R x.1 y.1 ∧ S x.2 y.2) (outcomes perform s acts)
      (outcomes perform' t acts) := by
  have hboth := outcomes_alike (f := id)
    (fun s t a hr hguard (_ : True) => hstep s t a hr hguard) acts hst hs (throughout_true _ _ _)
  rw [List.map_id] at hboth
  exact hboth

end TwoRuns
