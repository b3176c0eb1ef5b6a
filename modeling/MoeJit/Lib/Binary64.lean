import MoeJit.Lib.Rounding

/-!
# Double precision

The numbers with 53 binary digits, and the one nearest to a rational number. Exponents have no
bounds, so nothing overflows.

The rules of use are those of `Rounding` with 52 digits after the first.
-/

namespace Binary64

def Representable (x : ℚ) : Prop := ∃ m e : ℤ, |m| ≤ 2 ^ 53 ∧ x = m * 2 ^ e

/-- The integer next to a number; where two are, the even one. -/
def nearestInt (x : ℚ) : ℤ :=
  if x - ⌊x⌋ < 1 / 2 ∨ (x - ⌊x⌋ = 1 / 2 ∧ ⌊x⌋ % 2 = 0) then ⌊x⌋ else ⌊x⌋ + 1

/-- The exponent of the last of 53 digits. -/
def lastPlace (x : ℚ) : ℤ := Int.log 2 |x| - 52

def toDouble (x : ℚ) : ℚ := nearestInt (x / 2 ^ lastPlace x) * 2 ^ lastPlace x

/-! ## The rules of use -/

variable {x y : ℚ}

section

variable (hy : Representable y)
include hy

theorem toDouble_nearest (x : ℚ) : |toDouble x - x| ≤ |y - x| :=
  @Rounding.round_nearest 52 y hy x

theorem toDouble_of_representable : toDouble y = y :=
  @Rounding.round_of_representable 52 y hy

theorem le_toDouble (h : y ≤ x) : y ≤ toDouble x :=
  @Rounding.le_round 52 x y hy h

theorem toDouble_le (h : x ≤ y) : toDouble x ≤ y :=
  @Rounding.round_le 52 x y hy h

end

theorem representable_intCast {m : ℤ} (h : |m| ≤ 2 ^ 53) : Representable m :=
  @Rounding.representable_intCast 52 m h

end Binary64
