import Mathlib.Algebra.Order.Field.Power
import Mathlib.Data.Int.Log
import Mathlib.Data.Rat.Floor
import Mathlib.Tactic.Positivity

/-!
# Binary floating point

The numbers with some binary digits, and the one nearest to a rational number. Exponents have no
bounds, so nothing overflows.

`round_nearest`: no number of the format is nearer. From this alone follow the rules of use: a number
of the format is kept, and stays on its side of what is rounded.
-/

namespace Rounding

/-- The numbers with one more digit than `digits`, the first of which is 1. -/
def Representable (digits : ℕ) (x : ℚ) : Prop :=
  ∃ m e : ℤ, |m| ≤ 2 ^ (digits + 1) ∧ x = m * 2 ^ e

/-- The integer next to a number; where two are, the even one. -/
def nearestInt (x : ℚ) : ℤ :=
  if x - ⌊x⌋ < 1 / 2 ∨ (x - ⌊x⌋ = 1 / 2 ∧ ⌊x⌋ % 2 = 0) then ⌊x⌋ else ⌊x⌋ + 1

/-- The exponent of the last digit. -/
def lastPlace (digits : ℕ) (x : ℚ) : ℤ := Int.log 2 |x| - digits

def round (digits : ℕ) (x : ℚ) : ℚ :=
  nearestInt (x / 2 ^ lastPlace digits x) * 2 ^ lastPlace digits x

theorem nearestInt_nearest (x : ℚ) (k : ℤ) : |(nearestInt x : ℚ) - x| ≤ |(k : ℚ) - x| := by
  have hle := Int.floor_le x
  have hlt := Int.lt_floor_add_one x
  -- the other integer is on one of the two sides
  have hk : (k : ℚ) ≤ ⌊x⌋ ∨ (⌊x⌋ : ℚ) + 1 ≤ k := by
    rcases lt_or_ge ⌊x⌋ k with h | h
    · exact .inr (by exact_mod_cast h)
    · exact .inl (by exact_mod_cast h)
  rw [nearestInt]
  split_ifs with h
  · have hhalf : x - ⌊x⌋ ≤ 1 / 2 := h.elim le_of_lt fun heven => heven.1.le
    rw [abs_sub_comm, abs_of_nonneg (sub_nonneg.mpr hle)]
    rcases hk with hk | hk
    · rw [abs_sub_comm, abs_of_nonneg (by linarith)]
      linarith
    · rw [abs_of_nonneg (by linarith)]
      linarith
  · have hhalf : 1 / 2 ≤ x - ⌊x⌋ := not_lt.mp fun hlt => h (.inl hlt)
    push_cast
    rw [abs_of_nonneg (by linarith)]
    rcases hk with hk | hk
    · rw [abs_sub_comm, abs_of_nonneg (by linarith)]
      linarith
    · rw [abs_of_nonneg (by linarith)]
      linarith

variable {digits : ℕ} {x y : ℚ}

theorem round_nearest_multiple (digits : ℕ) (x : ℚ) (k : ℤ) :
    |round digits x - x| ≤ |k * 2 ^ lastPlace digits x - x| := by
  have hpos : (0 : ℚ) < 2 ^ lastPlace digits x := by positivity
  have hscale : ∀ a : ℚ, |a * 2 ^ lastPlace digits x - x| =
      |a - x / 2 ^ lastPlace digits x| * 2 ^ lastPlace digits x := by
    intro a
    rw [← abs_of_pos hpos, ← abs_mul, sub_mul, abs_of_pos hpos, div_mul_cancel₀ x hpos.ne']
  rw [round, hscale, hscale]
  exact mul_le_mul_of_nonneg_right (nearestInt_nearest _ k) hpos.le

theorem two_pow_lastPlace_le (hx : x ≠ 0) : 2 ^ digits * 2 ^ lastPlace digits x ≤ |x| := by
  have hlog := Int.zpow_log_le_self (b := 2) (by decide) (abs_pos.mpr hx)
  have hsplit : (2 : ℚ) ^ (digits + lastPlace digits x) = 2 ^ digits * 2 ^ lastPlace digits x := by
    rw [zpow_add₀ (by norm_num)]
    rfl
  rw [← hsplit, lastPlace, add_sub_cancel]
  exact_mod_cast hlog

theorem round_nearest_below (hx : x ≠ 0) :
    |round digits x - x| ≤ |x| - 2 ^ digits * 2 ^ lastPlace digits x := by
  have hlow : 2 ^ digits * 2 ^ lastPlace digits x ≤ |x| := two_pow_lastPlace_le hx
  have hcast : ((2 ^ digits : ℤ) : ℚ) = 2 ^ digits := by rw [Int.cast_pow, Int.cast_ofNat]
  have hup := round_nearest_multiple digits x (2 ^ digits)
  have hdown := round_nearest_multiple digits x (-2 ^ digits)
  rw [Int.cast_neg, hcast] at hdown
  rw [hcast] at hup
  generalize (2 : ℚ) ^ digits = power at hlow hup hdown ⊢
  rcases le_or_gt 0 x with hsign | hsign
  · rw [abs_of_nonneg hsign] at hlow ⊢
    rw [abs_of_nonpos (sub_nonpos.mpr hlow)] at hup
    linarith
  · rw [abs_of_neg hsign] at hlow ⊢
    rw [abs_of_nonneg (by linarith : 0 ≤ -power * 2 ^ lastPlace digits x - x)] at hdown
    linarith

/-- What is in the format but no multiple of the last place has fewer digits in front of it. -/
theorem abs_le_of_lt {m e : ℤ} (hm : |m| ≤ 2 ^ (digits + 1)) (he : e < lastPlace digits x) :
    |(m : ℚ) * 2 ^ e| ≤ 2 ^ digits * 2 ^ lastPlace digits x := by
  have hm' : |(m : ℚ)| ≤ 2 ^ (digits + 1) := by exact_mod_cast hm
  have hpow : (2 : ℚ) ^ (e + 1) ≤ 2 ^ lastPlace digits x := zpow_le_zpow_right₀ (by norm_num) he
  rw [zpow_add_one₀ (by norm_num)] at hpow
  have hpos : (0 : ℚ) < 2 ^ e := by positivity
  rw [abs_mul, abs_of_pos hpos]
  calc |(m : ℚ)| * 2 ^ e ≤ 2 ^ (digits + 1) * 2 ^ e := mul_le_mul_of_nonneg_right hm' hpos.le
    _ = 2 ^ digits * (2 ^ e * 2) := by ring
    _ ≤ 2 ^ digits * 2 ^ lastPlace digits x := mul_le_mul_of_nonneg_left hpow (by positivity)

theorem round_nearest (hy : Representable digits y) (x : ℚ) : |round digits x - x| ≤ |y - x| := by
  obtain ⟨m, e, hm, rfl⟩ := hy
  rcases le_or_gt (lastPlace digits x) e with he | he
  · obtain ⟨d, hd⟩ := Int.eq_ofNat_of_zero_le (sub_nonneg.mpr he)
    have hmultiple : (m : ℚ) * 2 ^ e = ((m * 2 ^ d : ℤ) : ℚ) * 2 ^ lastPlace digits x := by
      rw [show e = d + lastPlace digits x by omega, zpow_add₀ (by norm_num), zpow_natCast]
      push_cast
      ring
    rw [hmultiple]
    exact round_nearest_multiple digits x _
  · by_cases hx : x = 0
    · have hzero : round digits x - x = 0 := by
        rw [hx, round, zero_div, nearestInt]
        simp
      rw [hzero, abs_zero]
      exact abs_nonneg _
    · have hy := abs_le_of_lt hm he
      have hbelow := (abs_sub_abs_le_abs_sub x (m * 2 ^ e)).trans_eq (abs_sub_comm _ _)
      have hnear : |round digits x - x| ≤ |x| - 2 ^ digits * 2 ^ lastPlace digits x :=
        round_nearest_below hx
      linarith

theorem round_of_representable (hy : Representable digits y) : round digits y = y := by
  have h := round_nearest hy y
  rw [sub_self, abs_zero] at h
  exact sub_eq_zero.mp (abs_nonpos_iff.mp h)

theorem le_round (hy : Representable digits y) (h : y ≤ x) : y ≤ round digits x := by
  by_contra hlt
  have hnear := round_nearest hy x
  rw [abs_of_nonpos (by linarith), abs_of_nonpos (by linarith)] at hnear
  linarith

theorem round_le (hy : Representable digits y) (h : x ≤ y) : round digits x ≤ y := by
  by_contra hlt
  have hnear := round_nearest hy x
  rw [abs_of_nonneg (by linarith), abs_of_nonneg (by linarith)] at hnear
  linarith

theorem representable_intCast {m : ℤ} (h : |m| ≤ 2 ^ (digits + 1)) : Representable digits m :=
  ⟨m, 0, h, by rw [zpow_zero, mul_one]⟩

end Rounding
