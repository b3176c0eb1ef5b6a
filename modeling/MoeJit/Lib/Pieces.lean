import Mathlib.Data.List.Basic
import Mathlib.Order.MinMax

/-!
# Pieces of a whole

A piece has elements of a list and the place it starts from. Pieces in the order of their places
are looked at one after the other: whether there is a gap between what the first ones reach and the
next one (`gapless_iff`), how far they go without a gap (`runEnd_covers`), and the list they make
together (`join_eq_take`). Pieces can overlap.
-/

namespace Pieces

open List

variable {α : Type}

/-- An element is part of one of the pieces. -/
def Covers (pieces : List (List α × Nat)) (x : Nat) : Prop :=
  ∃ piece ∈ pieces, piece.2 ≤ x ∧ x < piece.2 + piece.1.length

/-- The end of the piece that goes farthest. -/
def reach : Nat → List (List α × Nat) → Nat
  | e, [] => e
  | e, piece :: pieces => reach (max e (piece.2 + piece.1.length)) pieces

/-- Every piece starts where the ones before it reach. -/
def gapless : Nat → List (List α × Nat) → Bool
  | _, [] => true
  | e, piece :: pieces =>
    if e < piece.2 then false else gapless (max e (piece.2 + piece.1.length)) pieces

/-- How far the pieces go without a gap. -/
def runEnd : Nat → List (List α × Nat) → Nat
  | e, [] => e
  | e, piece :: pieces =>
    if e < piece.2 then e else runEnd (max e (piece.2 + piece.1.length)) pieces

/-- No piece ends before the ones in front of it do, up to the first gap. -/
def Extending (e : Nat) (pieces : List (List α × Nat)) : Prop :=
  ∀ before piece after, pieces = before ++ piece :: after → gapless e before = true →
    reach e before ≤ piece.2 + piece.1.length

/-- The elements of each piece that are not there yet are appended. -/
def join : List α → List (List α × Nat) → List α
  | list, [] => list
  | list, piece :: pieces => join (list ++ piece.1.drop (list.length - piece.2)) pieces

theorem le_reach (e : Nat) (pieces : List (List α × Nat)) : e ≤ reach e pieces := by
  induction pieces generalizing e with
  | nil => exact le_refl e
  | cons piece pieces ih => exact (Nat.le_max_left _ _).trans (ih _)

variable {e : Nat}

variable {pieces : List (List α × Nat)} {piece : List α × Nat}

theorem end_le_reach (h : piece ∈ pieces) : piece.2 + piece.1.length ≤ reach e pieces := by
  induction pieces generalizing e with
  | nil => exact absurd h not_mem_nil
  | cons head pieces ih =>
    cases mem_cons.mp h with
    | inl heq => exact heq ▸ (Nat.le_max_right _ _).trans (le_reach _ pieces)
    | inr hmem => exact ih hmem

theorem reach_le {bound : Nat} (he : e ≤ bound)
    (h : ∀ piece ∈ pieces, piece.2 + piece.1.length ≤ bound) : reach e pieces ≤ bound := by
  induction pieces generalizing e with
  | nil => exact he
  | cons head pieces ih =>
    obtain ⟨hhead, hrest⟩ := forall_mem_cons.mp h
    exact ih (Nat.max_le.mpr ⟨he, hhead⟩) hrest

theorem gapless_cons : gapless e (piece :: pieces) = true ↔
      piece.2 ≤ e ∧ gapless (max e (piece.2 + piece.1.length)) pieces = true := by
  rw [gapless]
  split
  · next hgap => exact iff_of_false Bool.false_ne_true fun h => absurd h.1 (not_le.mpr hgap)
  · next hstart => exact ⟨fun h => ⟨not_lt.mp hstart, h⟩, And.right⟩

/-- There is no gap if every element up to the end is part of a piece. -/
theorem gapless_iff (hsorted : pieces.Pairwise fun a b => a.2 ≤ b.2) (e : Nat) :
    gapless e pieces = true ↔ ∀ x, e ≤ x → x < reach e pieces → Covers pieces x := by
  induction pieces generalizing e with
  | nil => exact iff_of_true rfl fun x hle hlt => absurd hlt (Nat.not_lt.mpr hle)
  | cons piece pieces ih =>
    obtain ⟨hhead, hrest⟩ := pairwise_cons.mp hsorted
    unfold gapless reach
    split
    · next hgap =>
      refine iff_of_false Bool.false_ne_true fun h => ?_
      have hlt : e < reach (max e (piece.2 + piece.1.length)) pieces :=
        Nat.lt_of_lt_of_le (Nat.lt_of_lt_of_le hgap (Nat.le_add_right _ _))
          ((Nat.le_max_right _ _).trans (le_reach _ _))
      obtain ⟨other, hother, hle, -⟩ := h e (Nat.le_refl e) hlt
      cases mem_cons.mp hother with
      | inl heq => exact absurd (heq ▸ hle) (Nat.not_le.mpr hgap)
      | inr hmem => exact absurd ((hhead other hmem).trans hle) (Nat.not_le.mpr hgap)
    · next hnot =>
      have hstart := Nat.not_lt.mp hnot
      rw [ih hrest]
      constructor
      · intro h x hle hlt
        cases Nat.lt_or_ge x (max e (piece.2 + piece.1.length)) with
        | inl hbefore =>
          refine ⟨piece, mem_cons_self, hstart.trans hle, ?_⟩
          exact (lt_max_iff.mp hbefore).resolve_left (Nat.not_lt.mpr hle)
        | inr hafter =>
          obtain ⟨other, hother, hboth⟩ := h x hafter hlt
          exact ⟨other, mem_cons_of_mem piece hother, hboth⟩
      · intro h x hle hlt
        obtain ⟨other, hother, hboth⟩ := h x ((Nat.le_max_left _ _).trans hle) hlt
        cases mem_cons.mp hother with
        | inl heq =>
          have hend : piece.2 + piece.1.length ≤ x := (Nat.le_max_right _ _).trans hle
          exact absurd (heq ▸ hboth.2) (Nat.not_lt.mpr hend)
        | inr hmem => exact ⟨other, hmem, hboth⟩

theorem le_runEnd (e : Nat) (pieces : List (List α × Nat)) : e ≤ runEnd e pieces := by
  induction pieces generalizing e with
  | nil => exact le_refl e
  | cons piece pieces ih =>
    unfold runEnd
    split
    · exact le_refl e
    · exact (Nat.le_max_left _ _).trans (ih _)

theorem runEnd_of_gapless (h : gapless e pieces = true) : runEnd e pieces = reach e pieces := by
  induction pieces generalizing e with
  | nil => rfl
  | cons piece pieces ih =>
    obtain ⟨hstart, hlater⟩ := gapless_cons.mp h
    rw [runEnd, if_neg (not_lt.mpr hstart), reach, ih hlater]

/-- What the pieces cover without a gap, and that they do not cover the end of it. -/
theorem runEnd_covers (hsorted : pieces.Pairwise fun a b => a.2 ≤ b.2) (e : Nat) :
    (∀ x, e ≤ x → x < runEnd e pieces → Covers pieces x) ∧ ¬Covers pieces (runEnd e pieces) := by
  induction pieces generalizing e with
  | nil =>
    refine ⟨fun x hle hlt => absurd hlt (not_lt.mpr hle), ?_⟩
    rintro ⟨piece, hpiece, -⟩
    exact not_mem_nil hpiece
  | cons piece pieces ih =>
    obtain ⟨hhead, hrest⟩ := pairwise_cons.mp hsorted
    unfold runEnd
    split
    · next hgap =>
      refine ⟨fun x hle hlt => absurd hlt (not_lt.mpr hle), ?_⟩
      rintro ⟨other, hother, hle, -⟩
      rcases mem_cons.mp hother with rfl | hmem
      · exact absurd hle (not_le.mpr hgap)
      · exact absurd ((hhead other hmem).trans hle) (not_le.mpr hgap)
    · next hstart =>
      have hstart := not_lt.mp hstart
      obtain ⟨hcovers, hend⟩ := ih hrest (max e (piece.2 + piece.1.length))
      have hreached := (Nat.le_max_right e _).trans
        (le_runEnd (max e (piece.2 + piece.1.length)) pieces)
      refine ⟨fun x hle hlt => ?_, ?_⟩
      · rcases lt_or_ge x (max e (piece.2 + piece.1.length)) with hbefore | hafter
        · refine ⟨piece, mem_cons_self, hstart.trans hle, ?_⟩
          exact (lt_max_iff.mp hbefore).resolve_left (not_lt.mpr hle)
        · obtain ⟨other, hother, hboth⟩ := hcovers x hafter hlt
          exact ⟨other, mem_cons_of_mem piece hother, hboth⟩
      · rintro ⟨other, hother, hboth⟩
        rcases mem_cons.mp hother with rfl | hmem
        · exact absurd hboth.2 (not_lt.mpr hreached)
        · exact hend ⟨other, hmem, hboth⟩

theorem extending_nil (e : Nat) : Extending e ([] : List (List α × Nat)) := by
  intro before piece after h
  exact absurd h.symm (append_ne_nil_of_right_ne_nil before (cons_ne_nil piece after))

theorem extending_cons : Extending e (piece :: pieces) ↔ e ≤ piece.2 + piece.1.length ∧
      (piece.2 ≤ e → Extending (max e (piece.2 + piece.1.length)) pieces) := by
  constructor
  · intro h
    refine ⟨h [] piece pieces rfl rfl, fun hstart before other after hpieces hgapless => ?_⟩
    refine h (piece :: before) other after (congrArg (piece :: ·) hpieces) ?_
    exact gapless_cons.mpr ⟨hstart, hgapless⟩
  · rintro ⟨hend, hlater⟩ before other after hpieces hgapless
    cases before with
    | nil =>
      obtain ⟨rfl, -⟩ := List.cons.inj hpieces
      exact hend
    | cons first before =>
      obtain ⟨rfl, hrest⟩ := List.cons.inj hpieces
      obtain ⟨hstart, hgapless⟩ := gapless_cons.mp hgapless
      exact hlater hstart before other after hrest hgapless

/-- A piece of a list. -/
structure PieceOf (whole : List α) (piece : List α × Nat) : Prop where
  data : piece.1 = (whole.drop piece.2).take piece.1.length
  le : piece.2 + piece.1.length ≤ whole.length

theorem PieceOf.append_take {whole : List α} (h : PieceOf whole piece) (hstart : piece.2 ≤ e) :
    whole.take e ++ piece.1.drop (e - piece.2) = whole.take (max e (piece.2 + piece.1.length)) := by
  have hdrop : piece.1.drop (e - piece.2) = (whole.drop e).take (piece.2 + piece.1.length - e) := by
    calc piece.1.drop (e - piece.2)
        = ((whole.drop piece.2).take piece.1.length).drop (e - piece.2) := by rw [← h.data]
      _ = ((whole.drop piece.2).drop (e - piece.2)).take (piece.1.length - (e - piece.2)) :=
          drop_take ..
      _ = (whole.drop e).take (piece.2 + piece.1.length - e) := by
        rw [drop_drop, Nat.add_sub_cancel' hstart]
        congr 1
        omega
  have hmax : max e (piece.2 + piece.1.length) = e + (piece.2 + piece.1.length - e) := by omega
  rw [hdrop, hmax, take_add]

theorem join_eq_take {whole : List α} (h : ∀ piece ∈ pieces, PieceOf whole piece)
    (he : e ≤ whole.length) (hgapless : gapless e pieces = true) :
    join (whole.take e) pieces = whole.take (reach e pieces) := by
  induction pieces generalizing e with
  | nil => rfl
  | cons piece pieces ih =>
    obtain ⟨hpiece, hrest⟩ := forall_mem_cons.mp h
    obtain ⟨hstart, hlater⟩ := gapless_cons.mp hgapless
    unfold join reach
    rw [length_take, min_eq_left he, hpiece.append_take hstart]
    exact ih hrest (Nat.max_le.mpr ⟨he, hpiece.le⟩) hlater

end Pieces
