import Mathlib.Algebra.Group.Nat.Defs
import Mathlib.Algebra.Group.Int.Defs
import Mathlib.Data.Nat.Basic
import Mathlib.Tactic.Common

/-!
# Unsigned machine words

Fixed-width unsigned arithmetic on `Nat`: a value of a `w`-bit type is a number
below `2 ^ w`, and a result that leaves the range wraps. The lemmas say when
the wrap is the identity, which is all a proof about an in-range computation
needs.
-/

namespace Words

/-- Conversion to a 32-bit unsigned type. -/
def u32 (n : Nat) : Nat := n % 2 ^ 32

/-- Conversion to a 64-bit unsigned type. -/
def u64 (n : Nat) : Nat := n % 2 ^ 64

/-- Conversion to a 32-bit signed type. -/
def i32 (n : Nat) : Int := if u32 n < 2 ^ 31 then u32 n else (u32 n : Int) - 2 ^ 32

/-- Conversion to a 64-bit signed type. -/
def i64 (n : Nat) : Int := if u64 n < 2 ^ 63 then u64 n else (u64 n : Int) - 2 ^ 64

/-- 32-bit unsigned subtraction of values in range. -/
def sub32 (a b : Nat) : Nat := (a + 2 ^ 32 - b) % 2 ^ 32

/-- 64-bit unsigned subtraction of values in range. -/
def sub64 (a b : Nat) : Nat := (a + 2 ^ 64 - b) % 2 ^ 64

theorem u32_lt (n : Nat) : u32 n < 2 ^ 32 := Nat.mod_lt _ (by decide)

theorem u64_lt (n : Nat) : u64 n < 2 ^ 64 := Nat.mod_lt _ (by decide)

theorem u32_of_lt {n : Nat} (h : n < 2 ^ 32) : u32 n = n := Nat.mod_eq_of_lt h

theorem u64_of_lt {n : Nat} (h : n < 2 ^ 64) : u64 n = n := Nat.mod_eq_of_lt h

theorem u32_le (n : Nat) : u32 n ≤ n := Nat.mod_le _ _

theorem u64_le (n : Nat) : u64 n ≤ n := Nat.mod_le _ _

theorem sub32_of_le {a b : Nat} (hb : b ≤ a) (ha : a < 2 ^ 32) : sub32 a b = a - b := by
  unfold sub32
  omega

theorem sub64_of_le {a b : Nat} (hb : b ≤ a) (ha : a < 2 ^ 64) : sub64 a b = a - b := by
  unfold sub64
  omega

end Words
