import Mathlib.Algebra.BigOperators.Ring.Finset
import MoeJit.Lib.Binary64

/-!
# Partitions of a ring all-reduce

The sizes of the messages of `RingAllReduce`, which are computed as `double`s: the partition is the
ceiling of the size divided by the number of members, and the last partitions are what remains.

`ring_partitions_tile_iff`: where no number of the computation is rounded, and for all sizes below 2^53, the sizes
are those of a tiling exactly if all partitions but the last one fit into the data. Otherwise the
size of the last one is negative (`not_tiled_four`).
-/

namespace MoeJit.Mpi

open Binary64 Finset

/-! ## 1. Model -/

/-- `std::ceil(1.0 * size / GroupSize())` in exact arithmetic. -/
def partitionOf (size groupSize : Nat) : Nat := (size + groupSize - 1) / groupSize

/-- `std::min(partition, size - partition * index)` in exact arithmetic, which is negative where the
partitions before cover all of the data. -/
def partitionSize (size groupSize k : Nat) : ℤ :=
  min (partitionOf size groupSize : ℤ) (size - partitionOf size groupSize * k)

/-- `std::ceil(1.0 * size / GroupSize())`. -/
def ringPartition (size groupSize : Nat) : ℚ := ⌈toDouble (toDouble size / toDouble groupSize)⌉

/-- `std::min(partition, size - partition * k)`, the size in a message for partition `k`. -/
def messageSize (size groupSize k : Nat) : ℚ :=
  let offset := toDouble (ringPartition size groupSize * toDouble k)
  min (ringPartition size groupSize) (toDouble (toDouble size - offset))

/-! ## 2. Statement -/

/-- The sizes can be converted as they are, and add up. -/
structure Tiled (size groupSize : Nat) : Prop where
  natural : ∀ k < groupSize, ∃ n : Nat, messageSize size groupSize k = n
  sum_eq : ∑ k ∈ range groupSize, messageSize size groupSize k = size

/-- No number of the computation is rounded to another one. -/
structure Unrounded (size groupSize : Nat) : Prop where
  whole : Representable size
  partition : ringPartition size groupSize = partitionOf size groupSize
  index : ∀ k < groupSize, Representable k
  offset : ∀ k < groupSize, Representable (partitionOf size groupSize * k : ℚ)
  rest : ∀ k < groupSize, Representable (size - partitionOf size groupSize * k : ℚ)

/-! ## 3. Exact sizes -/

section

variable {size groupSize k : Nat}

theorem le_partitionOf_mul (hpos : 0 < groupSize) : size ≤ groupSize * partitionOf size groupSize := by
  have h := Nat.div_add_mod (size + groupSize - 1) groupSize
  have hlt := Nat.mod_lt (size + groupSize - 1) hpos
  rw [partitionOf]
  omega

theorem pred_partitionOf_mul_lt (hpos : 0 < groupSize) (hsize : 0 < size) :
    (partitionOf size groupSize - 1) * groupSize < size := by
  have h := Nat.div_mul_le_self (size + groupSize - 1) groupSize
  rw [partitionOf, Nat.sub_one_mul]
  omega

section

variable (hfits : (groupSize - 1) * partitionOf size groupSize ≤ size)
include hfits

/-- A partition ends inside of the data, if the last one begins there. -/
theorem mul_le_size (hk : k < groupSize) : partitionOf size groupSize * k ≤ size := by
  rw [Nat.mul_comm] at hfits
  exact (Nat.mul_le_mul_left _ (Nat.le_sub_one_of_lt hk)).trans hfits

theorem partitionSize_nonneg (hk : k < groupSize) : 0 ≤ partitionSize size groupSize k := by
  have hle : (partitionOf size groupSize : ℤ) * k ≤ size := by exact_mod_cast mul_le_size hfits hk
  exact le_min (Int.natCast_nonneg _) (Int.sub_nonneg_of_le hle)

theorem partitionSize_of_lt (hk : k < groupSize - 1) :
    partitionSize size groupSize k = partitionOf size groupSize := by
  have hle := mul_le_size hfits (k := k + 1) (by omega)
  refine min_eq_left ?_
  rw [Nat.mul_succ] at hle
  have hle' : (partitionOf size groupSize : ℤ) * k + partitionOf size groupSize ≤ size := by
    exact_mod_cast hle
  linarith

end

theorem partitionSize_last (hpos : 0 < groupSize) : partitionSize size groupSize (groupSize - 1) =
      size - partitionOf size groupSize * (groupSize - 1 : Nat) := by
  refine min_eq_right ?_
  have hle : size ≤ groupSize * partitionOf size groupSize := le_partitionOf_mul hpos
  obtain ⟨n, rfl⟩ := Nat.exists_eq_succ_of_ne_zero hpos.ne'
  rw [Nat.succ_mul, Nat.mul_comm] at hle
  have hle' : (size : ℤ) ≤ partitionOf size n.succ * n + partitionOf size n.succ := by
    exact_mod_cast hle
  rw [Nat.succ_sub_one]
  linarith

theorem sum_partitionSize (hpos : 0 < groupSize)
    (hfits : (groupSize - 1) * partitionOf size groupSize ≤ size) :
    ∑ k ∈ range groupSize, partitionSize size groupSize k = size := by
  have hwhole : ∀ k ∈ range (groupSize - 1),
      partitionSize size groupSize k = partitionOf size groupSize := fun k hk =>
    partitionSize_of_lt hfits (mem_range.mp hk)
  rw [← Nat.sub_add_cancel hpos, sum_range_succ, Nat.sub_add_cancel hpos, sum_congr rfl hwhole,
    partitionSize_last hpos, sum_const, card_range, nsmul_eq_mul]
  ring

theorem partitionSize_neg (hpos : 0 < groupSize)
    (hfits : size < (groupSize - 1) * partitionOf size groupSize) :
    partitionSize size groupSize (groupSize - 1) < 0 := by
  rw [partitionSize_last hpos, mul_comm]
  exact Int.sub_neg_of_lt (by exact_mod_cast hfits)

/-! ## 4. Rounded sizes -/

theorem Unrounded.messageSize_eq (h : Unrounded size groupSize) (hk : k < groupSize) :
    messageSize size groupSize k = partitionSize size groupSize k := by
  rw [messageSize, h.partition, toDouble_of_representable (h.index k hk),
    toDouble_of_representable (h.offset k hk), toDouble_of_representable h.whole,
    toDouble_of_representable (h.rest k hk), partitionSize]
  push_cast
  rfl

theorem representable_natCast {n : Nat} (h : n ≤ 2 ^ 53) : Representable n := by
  have habs : |(n : ℤ)| ≤ 2 ^ 53 := by
    rw [Nat.abs_cast]
    exact_mod_cast h
  exact_mod_cast representable_intCast habs

theorem representable_add_inv {m j : Nat} (h : m * 2 ^ j + 1 ≤ 2 ^ 53) :
    Representable (m + 1 / 2 ^ j : ℚ) := by
  refine ⟨(m * 2 ^ j + 1 : Nat), -j, ?_, ?_⟩
  · rw [Nat.abs_cast]
    exact_mod_cast h
  · rw [zpow_neg, zpow_natCast]
    push_cast
    field_simp

theorem lt_toDouble_div {m : Nat} (hpos : 0 < groupSize) (hm : m * groupSize < size)
    (hsize : size < 2 ^ 53) : (m : ℚ) < toDouble (size / groupSize) := by
  have hlog := Nat.pow_log_le_self 2 hpos.ne'
  have hlog' := Nat.lt_pow_succ_log_self (by decide : 1 < 2) groupSize
  -- `m + 1 / 2 ^ j` has few enough digits to be a double, and lies nearer to the quotient than `m`
  generalize Nat.log 2 groupSize = j at hlog hlog'
  have hdigits : m * 2 ^ j + 1 ≤ 2 ^ 53 := by
    have := Nat.mul_le_mul_left m hlog
    omega
  have hnear := toDouble_nearest (representable_add_inv hdigits) (size / groupSize)
  -- the quotient is above the integer by a part, the other number by less than two of them
  have hgroup : (0 : ℚ) < groupSize := by exact_mod_cast hpos
  have hpart : 1 / groupSize ≤ (size / groupSize - m : ℚ) := by
    have hm' : (m * groupSize + 1 : ℚ) ≤ size := by exact_mod_cast hm
    rw [le_sub_iff_add_le, div_add' _ _ _ hgroup.ne', div_le_div_iff_of_pos_right hgroup]
    linarith
  have htwo : 1 / (2 : ℚ) ^ j < 2 / groupSize := by
    have hlt : (groupSize : ℚ) < 2 ^ j * 2 := by exact_mod_cast hlog'
    rw [div_lt_div_iff₀ (by positivity) hgroup]
    linarith
  have hinv : (0 : ℚ) < 1 / 2 ^ j := by positivity
  have hdouble : (2 : ℚ) / groupSize = 1 / groupSize + 1 / groupSize := by ring
  by_contra hle
  have hcloser : |(m + 1 / 2 ^ j : ℚ) - size / groupSize| < size / groupSize - m := by
    rw [abs_lt]
    constructor
    · linarith
    · linarith
  rw [abs_of_nonpos (by linarith)] at hnear
  linarith

section

variable (hpos : 0 < groupSize) (hle : groupSize ≤ size) (hsize : size < 2 ^ 53)
include hpos hle hsize

theorem ringPartition_eq : ringPartition size groupSize = partitionOf size groupSize := by
  have hgroup : (0 : ℚ) < groupSize := by exact_mod_cast hpos
  have hlow := pred_partitionOf_mul_lt hpos (hpos.trans_le hle)
  have hhigh : size ≤ groupSize * partitionOf size groupSize := le_partitionOf_mul hpos
  have hpartition : 0 < partitionOf size groupSize := by
    by_contra hzero
    rw [Nat.eq_zero_of_not_pos hzero, Nat.mul_zero] at hhigh
    omega
  have hbound : partitionOf size groupSize ≤ 2 ^ 53 := by
    have := Nat.le_mul_of_pos_right (partitionOf size groupSize - 1) hpos
    omega
  rw [ringPartition, toDouble_of_representable (representable_natCast hsize.le),
    toDouble_of_representable (representable_natCast (hle.trans hsize.le))]
  -- rounding moves the quotient neither down to the integer below nor above its ceiling
  have hceil : ⌈toDouble (size / groupSize : ℚ)⌉ = (partitionOf size groupSize : ℤ) := by
    rw [Int.ceil_eq_iff]
    constructor
    · have hlt := lt_toDouble_div hpos hlow hsize
      rw [Nat.cast_sub hpartition] at hlt
      exact_mod_cast hlt
    · have hquotient : (size / groupSize : ℚ) ≤ partitionOf size groupSize := by
        rw [div_le_iff₀ hgroup, mul_comm]
        exact_mod_cast hhigh
      exact_mod_cast toDouble_le (representable_natCast hbound) hquotient
  rw [hceil]
  rfl

theorem unrounded_of_fits (hfits : (groupSize - 1) * partitionOf size groupSize ≤ size) :
    Unrounded size groupSize where
  whole := representable_natCast hsize.le
  partition := ringPartition_eq hpos hle hsize
  index k hk := representable_natCast (by omega)
  offset k hk := by
    exact_mod_cast representable_natCast ((mul_le_size hfits hk).trans hsize.le)
  rest k hk := by
    have hrest : size - partitionOf size groupSize * k ≤ 2 ^ 53 := by omega
    have hcast := representable_natCast hrest
    rwa [Nat.cast_sub (mul_le_size hfits hk), Nat.cast_mul] at hcast

/-- A rounded offset is not inside of the data, if the exact one is not. -/
theorem messageSize_neg (hfits : size < (groupSize - 1) * partitionOf size groupSize) :
    messageSize size groupSize (groupSize - 1) < 0 := by
  have hsucc := representable_natCast (n := size + 1) hsize
  have hone : Representable (-1 : ℚ) := ⟨-1, 0, by norm_num, by norm_num⟩
  have hindex := representable_natCast (n := groupSize - 1) (by omega)
  rw [messageSize, ringPartition_eq hpos hle hsize, toDouble_of_representable hindex,
    toDouble_of_representable (representable_natCast hsize.le)]
  have hoffset : ((size + 1 : Nat) : ℚ) ≤ partitionOf size groupSize * (groupSize - 1 : Nat) := by
    rw [mul_comm]
    exact_mod_cast hfits
  -- the offset is past the end by one at least, which rounding cannot undo
  have hrounded := le_toDouble hsucc hoffset
  push_cast at hrounded
  have hrest : toDouble (size - toDouble (partitionOf size groupSize * (groupSize - 1 : Nat))) ≤ -1 :=
    toDouble_le hone (by linarith)
  exact (min_le_right _ _).trans_lt (hrest.trans_lt (by norm_num))

end

/-! ## 5. The tiling -/

/-- Without rounding, the sizes tile the data exactly if all partitions but the last one fit. -/
theorem Unrounded.tiled_iff (h : Unrounded size groupSize) (hpos : 0 < groupSize) :
    Tiled size groupSize ↔ (groupSize - 1) * partitionOf size groupSize ≤ size := by
  constructor
  · rintro ⟨hnatural, -⟩
    by_contra hfits
    obtain ⟨n, hn⟩ := hnatural (groupSize - 1) (by omega)
    have hneg := partitionSize_neg hpos (not_le.mp hfits)
    rw [h.messageSize_eq (by omega)] at hn
    have hn' : partitionSize size groupSize (groupSize - 1) = n := by exact_mod_cast hn
    omega
  · intro hfits
    refine ⟨fun k hk => ?_, ?_⟩
    · obtain ⟨n, hn⟩ := Int.eq_ofNat_of_zero_le (partitionSize_nonneg hfits hk)
      exact ⟨n, by rw [h.messageSize_eq hk, hn, Int.cast_natCast]⟩
    · rw [sum_congr rfl fun k hk => h.messageSize_eq (mem_range.mp hk), ← Int.cast_sum,
        sum_partitionSize hpos hfits, Int.cast_natCast]

end

/-- The sizes of the messages are natural numbers that add up to the size of the data if and only if
the last partition begins inside of the data; for sizes below 2^53, and all others without
rounding. -/
theorem ring_partitions_tile_iff {size groupSize : Nat} (hpos : 1 ≤ groupSize) (hle : groupSize ≤ size)
    (hexact : size < 2 ^ 53 ∨ Unrounded size groupSize) :
    Tiled size groupSize ↔ (groupSize - 1) * partitionOf size groupSize ≤ size := by
  rcases hexact with hsize | hunrounded
  · by_cases hfits : (groupSize - 1) * partitionOf size groupSize ≤ size
    · exact (unrounded_of_fits hpos hle hsize hfits).tiled_iff hpos
    · refine iff_of_false (fun htiled => ?_) hfits
      obtain ⟨n, hn⟩ := htiled.natural (groupSize - 1) (Nat.sub_one_lt_of_lt hpos)
      have hneg := messageSize_neg hpos hle hsize (not_le.mp hfits)
      rw [hn] at hneg
      exact absurd hneg (not_lt.mpr (Nat.cast_nonneg n))
  · exact hunrounded.tiled_iff hpos

/-- Ten elements for four members: 3, 3, 3 and 1. -/
theorem tiled_ten : Tiled 10 4 :=
  (ring_partitions_tile_iff (by decide) (by decide) (.inl (by decide))).mpr (by decide)

/-- Five elements for four members: 2, 2, 1 and -1. -/
theorem not_tiled_four : ¬Tiled 5 4 := by
  rintro ⟨hnatural, -⟩
  obtain ⟨n, hn⟩ := hnatural 3 (by decide)
  have hneg : messageSize 5 4 (4 - 1) < 0 :=
    messageSize_neg (by decide) (by decide) (by decide) (by decide)
  rw [hn] at hneg
  exact absurd hneg (not_lt.mpr (Nat.cast_nonneg n))

end MoeJit.Mpi
