import Mathlib.Algebra.Group.Nat.Defs
import Mathlib.Order.Lattice
import Mathlib.Tactic.Common

/-!
# Numbers on a circle

Numbers that are counted modulo `n`. `gap n a b` is how far `a` is ahead of `b`, from one to the
other on the circle.

As long as `p` is less than a turn ahead of `q`, the gap between them on the circle is the one on
the line (`gap_mod`). A place on the circle has a number on the line in the turn from `q` on
(`add_gap_mod`).
-/

namespace Circle

def gap (n a b : Nat) : Nat := (a + n - b) % n

theorem gap_lt {n : Nat} (hn : 0 < n) (a b : Nat) : gap n a b < n := Nat.mod_lt _ hn

theorem gap_mod {n p q : Nat} (hle : q ≤ p) (hlt : p < q + n) : gap n (p % n) (q % n) = p - q := by
  obtain ⟨d, rfl⟩ := Nat.exists_eq_add_of_le hle
  have hd : d < n := Nat.lt_of_add_lt_add_left hlt
  have hr : q % n < n := Nat.mod_lt q (Nat.zero_lt_of_lt hd)
  have hsum : (q + d) % n = (q % n + d) % n := (Nat.mod_add_mod q n d).symm
  rw [gap, hsum, Nat.add_sub_cancel_left]
  rcases lt_or_ge (q % n + d) n with hin | hout
  · rw [Nat.mod_eq_of_lt hin, add_assoc, Nat.add_sub_cancel_left, Nat.add_mod_right,
      Nat.mod_eq_of_lt hd]
  · have hturn : q % n + d - n < n := Nat.sub_lt_left_of_lt_add hout (Nat.add_lt_add hr hd)
    rw [Nat.mod_eq_sub_mod hout, Nat.mod_eq_of_lt hturn, Nat.sub_add_cancel hout,
      Nat.add_sub_cancel_left, Nat.mod_eq_of_lt hd]

theorem add_gap_mod {n a : Nat} (ha : a < n) (q : Nat) : (q + gap n a (q % n)) % n = a := by
  have hr : q % n ≤ a + n := (Nat.mod_lt q (Nat.zero_lt_of_lt ha)).le.trans (Nat.le_add_left n a)
  rw [gap, Nat.add_mod_mod, ← Nat.mod_add_mod, Nat.add_sub_cancel' hr, Nat.add_mod_right,
    Nat.mod_eq_of_lt ha]

/-- Within one turn, a number on the line is told by its place. -/
theorem eq_of_mod_eq {n p q : Nat} (hle : q ≤ p) (hlt : p < q + n) (h : p % n = q % n) : p = q := by
  have hgap := gap_mod hle hlt
  rw [h, gap, Nat.add_sub_cancel_left, Nat.mod_self] at hgap
  omega

/-- The places that are less than a turn ahead of `q` are different. -/
theorem add_mod_inj {n i j : Nat} (hi : i < n) (hj : j < n) (q : Nat) :
    (q + i) % n = (q + j) % n ↔ i = j := by
  constructor
  · intro h
    rcases le_total i j with hij | hji
    · have heq := eq_of_mod_eq (Nat.add_le_add_left hij q) (by omega) h.symm
      exact (Nat.add_left_cancel heq).symm
    · exact Nat.add_left_cancel (eq_of_mod_eq (Nat.add_le_add_left hji q) (by omega) h)
  · rintro rfl
    rfl

end Circle
