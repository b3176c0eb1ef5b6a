import Mathlib.Data.BitVec

/-!
# Sequence numbers

`SequenceNumber32`: a number modulo `2 ^ 32`, compared by which way round is the shorter one.
Two numbers that are half the space apart are compared by their values.

Numbers whose distances from a common start are less than half the space apart are ordered as
these distances (`gt_add_ofNat` and its like), wherever the start is.
-/

namespace MoeJit.Tcp

open BitVec (ofNat ofNat_toNat setWidth_eq toNat_inj toNat_ofNat toNat_sub)

structure SequenceNumber32 where
  value : BitVec 32
  deriving DecidableEq

namespace SequenceNumber32

def halfMaxValue : BitVec 32 := 0x7fffffff#32

instance : HAdd SequenceNumber32 (BitVec 32) SequenceNumber32 where
  hAdd a delta := ⟨a.value + delta⟩

/-- The source returns the difference as a signed number of the same bits. -/
instance : HSub SequenceNumber32 SequenceNumber32 (BitVec 32) where
  hSub a b := a.value - b.value

def gt (a b : SequenceNumber32) : Bool :=
  (b.value < a.value && a.value - b.value ≤ halfMaxValue) ||
    (a.value < b.value && halfMaxValue < b.value - a.value)

def ge (a b : SequenceNumber32) : Bool := a.gt b || a = b

def le (a b : SequenceNumber32) : Bool := !a.gt b

def lt (a b : SequenceNumber32) : Bool := !a.gt b && a ≠ b

@[simp] theorem value_add (a : SequenceNumber32) (delta : BitVec 32) :
    (a + delta).value = a.value + delta := rfl

theorem sub_def (a b : SequenceNumber32) : a - b = a.value - b.value := rfl

theorem add_assoc (a : SequenceNumber32) (x y : BitVec 32) : a + x + y = a + (x + y) := by
  show SequenceNumber32.mk (a.value + x + y) = SequenceNumber32.mk (a.value + (x + y))
  rw [BitVec.add_assoc]

theorem add_zero (a : SequenceNumber32) : a + 0#32 = a := by
  show SequenceNumber32.mk (a.value + 0#32) = a
  rw [BitVec.add_zero]

theorem add_sub_self (a : SequenceNumber32) (x : BitVec 32) : a + x - a = x := by
  rw [sub_def, value_add, add_sub_cancel_left]

theorem add_sub (a b : SequenceNumber32) : b + (a - b) = a := by
  show SequenceNumber32.mk (b.value + (a.value - b.value)) = a
  rw [add_sub_cancel]

theorem add_left_inj {a : SequenceNumber32} {x y : BitVec 32} : a + x = a + y ↔ x = y := by
  constructor
  · intro h
    have hval : a.value + x = a.value + y := congrArg value h
    exact add_left_cancel hval
  · intro h
    rw [h]

theorem add_ofNat_add (a : SequenceNumber32) (n : Nat) (x : BitVec 32) :
    a + ofNat 32 n + x = a + ofNat 32 (n + x.toNat) := by
  rw [add_assoc, BitVec.ofNat_add, ofNat_toNat, setWidth_eq]

theorem add_ofNat_toNat (a : SequenceNumber32) (x : BitVec 32) : a + ofNat 32 x.toNat = a + x := by
  rw [ofNat_toNat, setWidth_eq]

/-! ## Distances -/

/-- Ahead by less than half the space; at half the space the smaller value is greater. -/
theorem gt_iff (a b : SequenceNumber32) :
    a.gt b = true ↔ (0 < (a - b).toNat ∧ (a - b).toNat < 2 ^ 31) ∨
      ((a - b).toNat = 2 ^ 31 ∧ a.value.toNat < b.value.toNat) := by
  have ha := a.value.isLt
  have hb := b.value.isLt
  simp only [gt, halfMaxValue, sub_def, Bool.or_eq_true, Bool.and_eq_true, decide_eq_true_eq,
    BitVec.lt_def, BitVec.le_def, toNat_sub, toNat_ofNat]
  omega

/-- Of two different numbers one is past the other. -/
theorem lt_eq_gt (a b : SequenceNumber32) : a.lt b = b.gt a := by
  have ha := a.value.isLt
  have hb := b.value.isLt
  have heq : a = b ↔ a.value.toNat = b.value.toNat := by
    cases a
    cases b
    rw [mk.injEq, toNat_inj]
  rw [Bool.eq_iff_iff, lt, Bool.and_eq_true, Bool.not_eq_true', ← Bool.not_eq_true, decide_eq_true_eq,
    gt_iff, gt_iff, ne_eq, heq, sub_def, sub_def, toNat_sub, toNat_sub]
  omega

/-- A number that another one is not past is at most half the space ahead of it. -/
theorem toNat_sub_le {a b : SequenceNumber32} (h : a.ge b = false) : (b - a).toNat ≤ 2 ^ 31 := by
  have ha := a.value.isLt
  have hb := b.value.isLt
  have hgt : ¬a.gt b = true := Bool.eq_false_iff.mp (Bool.or_eq_false_iff.mp h).1
  rw [gt_iff, sub_def, toNat_sub] at hgt
  rw [sub_def, toNat_sub]
  omega

section Window

variable (s : SequenceNumber32) {x y : Nat}

theorem ofNat_sub_ofNat : ((s + ofNat 32 x) - (s + ofNat 32 y)).toNat =
    (2 ^ 32 - y % 2 ^ 32 + x % 2 ^ 32) % 2 ^ 32 := by
  rw [sub_def, value_add, value_add, add_sub_add_left_eq_sub, toNat_sub, toNat_ofNat, toNat_ofNat]

theorem add_ofNat_inj (hx : x < y + 2 ^ 32) (hy : y < x + 2 ^ 32) :
    s + ofNat 32 x = s + ofNat 32 y ↔ x = y := by
  rw [add_left_inj, ← toNat_inj, toNat_ofNat, toNat_ofNat]
  omega

section

variable (hx : x < y + 2 ^ 31) (hy : y < x + 2 ^ 31)
include hx hy

theorem gt_add_ofNat : (s + ofNat 32 x).gt (s + ofNat 32 y) = decide (y < x) := by
  rw [Bool.eq_iff_iff, gt_iff, ofNat_sub_ofNat, decide_eq_true_eq]
  omega

theorem ge_add_ofNat : (s + ofNat 32 x).ge (s + ofNat 32 y) = decide (y ≤ x) := by
  have hinj := add_ofNat_inj s (x := x) (y := y) (by omega) (by omega)
  rw [ge, gt_add_ofNat s hx hy, Bool.eq_iff_iff, Bool.or_eq_true, decide_eq_true_eq,
    decide_eq_true_eq, decide_eq_true_eq, hinj]
  omega

theorem le_add_ofNat : (s + ofNat 32 x).le (s + ofNat 32 y) = decide (x ≤ y) := by
  rw [le, gt_add_ofNat s hx hy, Bool.eq_iff_iff, Bool.not_eq_true', decide_eq_false_iff_not,
    decide_eq_true_eq, not_lt]

theorem lt_add_ofNat : (s + ofNat 32 x).lt (s + ofNat 32 y) = decide (x < y) := by
  have hinj := add_ofNat_inj s (x := x) (y := y) (by omega) (by omega)
  rw [lt, gt_add_ofNat s hx hy, Bool.eq_iff_iff, Bool.and_eq_true, Bool.not_eq_true',
    decide_eq_false_iff_not, decide_eq_true_eq, decide_eq_true_eq, ne_eq, hinj]
  omega

end

theorem ge_self (hx : x < 2 ^ 31) : (s + ofNat 32 x).ge s = true := by
  have h := ge_add_ofNat s (x := x) (y := 0) (by omega) (by omega)
  rw [decide_eq_true (Nat.zero_le x), show s + ofNat 32 0 = s from add_zero s] at h
  exact h

theorem self_gt (hx : x < 2 ^ 31) : s.gt (s + ofNat 32 x) = false := by
  have h := gt_add_ofNat s (x := 0) (y := x) (by omega) (by omega)
  rw [decide_eq_false (Nat.not_lt_zero x), show s + ofNat 32 0 = s from add_zero s] at h
  exact h

end Window

end SequenceNumber32

end MoeJit.Tcp
