import Mathlib.Tactic.Ring

/-!
# Fixed-point numbers

`int64x64_t`, a number of 128 bits of which 64 are the fraction, over a native `int128_t` and over
the pairs of words of `cairo-wideint`. Both multiply with four partial products and give up when the
high one is too large. The native mask for that has 64 bits and is 0, so that it never gives up.

`mul_right_iff`: a product is right, and the same in both, exactly if it fits.
`square_wraps`: the native square of `2 ^ 32` is 0.
-/

namespace MoeJit.HighPrec

open BitVec (eq_of_toNat_eq lt_def ofInt ofNat toNat toNat_and toNat_neg)

/-! ## 1. Native numbers -/

def hpMaskLo : BitVec 64 := 0xffffffffffffffff

/-- A `uint64_t`. -/
def hpMaskHi : BitVec 64 := ~~~hpMaskLo

/-- The magnitudes, and whether the result is negative. -/
def outputSign (sa sb : BitVec 128) : BitVec 128 × BitVec 128 × Bool :=
  (if sa.msb then -sa else sa, if sb.msb then -sb else sb, sa.msb != sb.msb)

/-- `none` when the multiplication aborts. -/
def umul (a b : BitVec 128) : Option (BitVec 128) :=
  let aL := a &&& hpMaskLo.setWidth 128
  let bL := b &&& hpMaskLo.setWidth 128
  let aH := (a >>> 64) &&& hpMaskLo.setWidth 128
  let bH := (b >>> 64) &&& hpMaskLo.setWidth 128
  let loPart := aL * bL
  let midPart := aL * bH + aH * bL
  let hiPart := aH * bH
  if hiPart &&& hpMaskHi.setWidth 128 ≠ 0 then none
  else
    let result := (loPart >>> 64) + (midPart &&& hpMaskLo.setWidth 128)
    some (result + (((midPart >>> 64) + (hiPart &&& hpMaskLo.setWidth 128)) <<< 64))

def mul (v o : BitVec 128) : Option (BitVec 128) := do
  let (a, b, negative) := outputSign v o
  let result ← umul a b
  return if negative then -result else result

/-! ## 2. Pairs of words -/

/-- `cairo_uint128_t`. -/
structure UInt128 where
  lo : BitVec 64
  hi : BitVec 64
  deriving DecidableEq

namespace Cairo

def uint64Lo32 (i : BitVec 64) : BitVec 32 := i.setWidth 32

def uint64Hi32 (i : BitVec 64) : BitVec 32 := (i >>> 32).setWidth 32

def uint32x32To64Mul (a b : BitVec 32) : BitVec 64 := a.setWidth 64 * b.setWidth 64

def uint64Carry32 : BitVec 64 := 1 <<< 32

def uint64x64To128Mul (a b : BitVec 64) : UInt128 :=
  let al := uint64Lo32 a
  let ah := uint64Hi32 a
  let bl := uint64Lo32 b
  let bh := uint64Hi32 b
  let r0 := uint32x32To64Mul al bl
  let r2 := uint32x32To64Mul ah bl
  let r3 := uint32x32To64Mul ah bh
  -- no carry possible in the first addition, but the second can carry
  let r1 := uint32x32To64Mul al bh + (r0 >>> 32) + r2
  let r3 := if r1 < r2 then r3 + uint64Carry32 else r3
  { hi := r3 + (r1 >>> 32), lo := (r1 <<< 32) + (r0 &&& 0xffffffff) }

def uint128Add (a b : UInt128) : UInt128 :=
  let lo := a.lo + b.lo
  { hi := if lo < a.lo then a.hi + b.hi + 1 else a.hi + b.hi, lo }

def uint64ToUint128 (i : BitVec 64) : UInt128 := ⟨i, 0⟩

def uint128Negate (a : UInt128) : UInt128 := uint128Add ⟨~~~a.lo, ~~~a.hi⟩ (uint64ToUint128 1)

def uint128Lsl (a : UInt128) (shift : Nat) : UInt128 :=
  let (a, shift) := if 64 ≤ shift then (⟨0, a.lo⟩, shift - 64) else (a, shift)
  if shift = 0 then a
  else { hi := (a.hi <<< shift) + (a.lo >>> (64 - shift)), lo := a.lo <<< shift }

def outputSign (sa sb : UInt128) : UInt128 × UInt128 × Bool :=
  let negA := sa.hi.msb
  let negB := sb.hi.msb
  (if negA then uint128Negate sa else sa, if negB then uint128Negate sb else sb,
    (negA && !negB) || (!negA && negB))

def umul (a b : UInt128) : Option UInt128 :=
  let loPart := uint64x64To128Mul a.lo b.lo
  let midPart := uint128Add (uint64x64To128Mul a.lo b.hi) (uint64x64To128Mul a.hi b.lo)
  let hiPart := uint64x64To128Mul a.hi b.hi
  if hiPart.hi ≠ 0 then none
  else
    let result := uint128Add (uint64ToUint128 loPart.hi) (uint64ToUint128 midPart.lo)
    let res1 := uint128Add (uint64ToUint128 midPart.hi) (uint64ToUint128 hiPart.lo)
    some (uint128Add result (uint128Lsl res1 64))

def mul (v o : UInt128) : Option UInt128 := do
  let (a, b, sign) := outputSign v o
  let result ← umul a b
  return if sign then uint128Negate result else result

end Cairo

/-- The native number of the same bits. -/
def UInt128.bits (x : UInt128) : BitVec 128 := x.hi ++ x.lo

/-! ## 3. Statement -/

/-- The product, truncated toward zero to a multiple of `2 ^ -64`. -/
def product (a b : BitVec 128) : Int := (a.toInt * b.toInt).tdiv (2 ^ 64)

/-- Aborts, or yields the product. -/
def ExactOrAborts (result : Option (BitVec 128)) (a b : BitVec 128) : Prop :=
  ∀ r, result = some r → r.toInt = product a b

/-- Both multiplications are right, and they do the same. -/
structure MulRight (a b : UInt128) : Prop where
  native : ExactOrAborts (mul a.bits b.bits) a.bits b.bits
  cairo : ExactOrAborts ((Cairo.mul a b).map UInt128.bits) a.bits b.bits
  same : (Cairo.mul a b).map UInt128.bits = mul a.bits b.bits

/-- What 128 bits hold. -/
def Fits (x : Int) : Prop := -2 ^ 127 ≤ x ∧ x < 2 ^ 127

/-! ## 4. The native product -/

section Native

variable {a b x y : BitVec 128}

theorem toNat_and_mask (x : BitVec 128) :
    (x &&& hpMaskLo.setWidth 128).toNat = x.toNat % 2 ^ 64 := by
  rw [toNat_and]
  exact Nat.and_two_pow_sub_one_eq_mod _ 64

/-- The parts of a product of two numbers that are made of words. -/
theorem mul_div_words (al ah bl bh : Nat) : (2 ^ 64 * ah + al) * (2 ^ 64 * bh + bl) / 2 ^ 64 =
      2 ^ 64 * (ah * bh) + (al * bh + ah * bl) + al * bl / 2 ^ 64 := by
  have hsplit : (2 ^ 64 * ah + al) * (2 ^ 64 * bh + bl) =
      al * bl + 2 ^ 64 * (2 ^ 64 * (ah * bh) + (al * bh + ah * bl)) := by ring
  rw [hsplit, Nat.add_mul_div_left _ _ (by decide), add_comm]

theorem umul_eq (ha : a.toNat ≤ 2 ^ 127) (hb : b.toNat ≤ 2 ^ 127) :
    umul a b = some (ofNat 128 (a.toNat * b.toNat / 2 ^ 64)) := by
  have hnever : ∀ x : BitVec 128, x &&& hpMaskHi.setWidth 128 = 0 := fun x => by
    rw [show hpMaskHi.setWidth 128 = 0 from rfl]
    exact BitVec.and_zero
  unfold umul
  rw [if_neg (not_not.mpr (hnever _))]
  refine congrArg some (eq_of_toNat_eq ?_)
  have hwords := mul_div_words (a.toNat % 2 ^ 64) (a.toNat / 2 ^ 64) (b.toNat % 2 ^ 64)
    (b.toNat / 2 ^ 64)
  rw [Nat.div_add_mod, Nat.div_add_mod] at hwords
  have hal : a.toNat % 2 ^ 64 < 2 ^ 64 := Nat.mod_lt _ (by decide)
  have hbl : b.toNat % 2 ^ 64 < 2 ^ 64 := Nat.mod_lt _ (by decide)
  have hah : a.toNat / 2 ^ 64 ≤ 2 ^ 63 := by omega
  have hbh : b.toNat / 2 ^ 64 ≤ 2 ^ 63 := by omega
  have hmodA := Nat.mod_eq_of_lt (hah.trans_lt (show 2 ^ 63 < 2 ^ 64 by decide))
  have hmodB := Nat.mod_eq_of_lt (hbh.trans_lt (show 2 ^ 63 < 2 ^ 64 by decide))
  -- no partial product and no middle sum needs more than 128 bits
  have hlo := Nat.mul_lt_mul'' hal hbl
  have hmid := Nat.mul_le_mul hal.le hbh
  have hmid' := Nat.mul_le_mul hah hbl.le
  have hhi := Nat.mul_le_mul hah hbh
  simp only [BitVec.toNat_add, BitVec.toNat_mul, BitVec.toNat_ushiftRight, toNat_and_mask,
    BitVec.toNat_shiftLeft, BitVec.toNat_ofNat, Nat.shiftRight_eq_div_pow, Nat.shiftLeft_eq, hmodA,
    hmodB, hwords]
  generalize a.toNat % 2 ^ 64 * (b.toNat % 2 ^ 64) = lo at *
  generalize a.toNat % 2 ^ 64 * (b.toNat / 2 ^ 64) = mid at *
  generalize a.toNat / 2 ^ 64 * (b.toNat % 2 ^ 64) = mid' at *
  generalize a.toNat / 2 ^ 64 * (b.toNat / 2 ^ 64) = hi at *
  omega

/-- The magnitude of a number, as a number without a sign. -/
theorem toNat_magnitude (x : BitVec 128) : (if x.msb then -x else x).toNat = x.toInt.natAbs := by
  rw [BitVec.toInt_eq_msb_cond]
  have hlt := x.isLt
  split
  · next hneg =>
    have hle := BitVec.msb_eq_true_iff_two_mul_ge.mp hneg
    rw [toNat_neg]
    omega
  · rfl

theorem natAbs_toInt_le (x : BitVec 128) : x.toInt.natAbs ≤ 2 ^ 127 := by
  have hle := BitVec.le_two_mul_toInt (x := x)
  have hlt := BitVec.two_mul_toInt_lt (x := x)
  omega

theorem msb_eq_decide (x : BitVec 128) : x.msb = decide (x.toInt < 0) := by
  rw [Bool.eq_iff_iff, decide_eq_true_iff]
  exact BitVec.msb_eq_toInt ▸ decide_eq_true_iff

/-- The sign goes to the quotient of the magnitudes. -/
theorem tdiv_of_signs (x y : Int) : (x * y).tdiv (2 ^ 64) =
    if decide (x < 0) != decide (y < 0) then -((x.natAbs * y.natAbs / 2 ^ 64 : Nat) : Int)
    else ((x.natAbs * y.natAbs / 2 ^ 64 : Nat) : Int) := by
  have hquot (n : Nat) : ((n : Int)).tdiv (2 ^ 64) = ((n / 2 ^ 64 : Nat) : Int) := rfl
  rw [← hquot, ← Int.neg_tdiv]
  have hmul : x * y = if decide (x < 0) != decide (y < 0) then
      -((x.natAbs * y.natAbs : Nat) : Int) else ((x.natAbs * y.natAbs : Nat) : Int) := by
    have habs (z : Int) : (z.natAbs : Int) = if z < 0 then -z else z := by
      split <;> omega
    rw [Nat.cast_mul, habs, habs]
    by_cases hx : x < 0 <;> by_cases hy : y < 0 <;> simp [hx, hy]
  rw [hmul]
  split <;> rfl

theorem ofInt_signed {w : Nat} (negative : Bool) (n : Nat) :
    (if negative then -ofNat w n else ofNat w n) =
      ofInt w (if negative then -(n : Int) else n) := by
  cases negative with
  | false => exact (BitVec.ofInt_natCast w n).symm
  | true => exact ((BitVec.ofInt_neg).trans (congrArg _ (BitVec.ofInt_natCast w n))).symm

/-- The native product never aborts. It is right up to a multiple of `2 ^ 128`. -/
theorem mul_eq (a b : BitVec 128) : mul a b = some (ofInt 128 (product a b)) := by
  unfold mul outputSign
  show (umul (if a.msb then -a else a) (if b.msb then -b else b) >>= _) = _
  rw [umul_eq (by rw [toNat_magnitude]; exact natAbs_toInt_le a)
    (by rw [toNat_magnitude]; exact natAbs_toInt_le b), toNat_magnitude, toNat_magnitude]
  refine congrArg some ?_
  rw [product, tdiv_of_signs, ← ofInt_signed, msb_eq_decide, msb_eq_decide]

end Native

theorem toInt_ofInt_iff (x : Int) : (ofInt 128 x).toInt = x ↔ Fits x := by
  rw [BitVec.toInt_ofInt]
  constructor
  · intro h
    have hle := Int.le_bmod (x := x) (show 0 < 2 ^ 128 by decide)
    have hlt := Int.bmod_lt (x := x) (show 0 < 2 ^ 128 by decide)
    rw [h] at hle hlt
    exact ⟨by omega, by omega⟩
  · intro h
    obtain ⟨hle, hlt⟩ := h
    exact Int.bmod_eq_of_le (by omega) (by omega)

/-! ## 5. The product of pairs of words -/

section Words

variable {a b : UInt128}

def UInt128.val (x : UInt128) : Nat := x.hi.toNat * 2 ^ 64 + x.lo.toNat

theorem toNat_bits (x : UInt128) : x.bits.toNat = x.val := by
  have hlt := x.lo.isLt
  rw [UInt128.bits, BitVec.toNat_append, Nat.shiftLeft_eq, UInt128.val,
    ← Nat.shiftLeft_eq, ← Nat.shiftLeft_add_eq_or_of_lt hlt]

theorem msb_bits (x : UInt128) : x.bits.msb = x.hi.msb := by
  rw [UInt128.bits, BitVec.msb_append]
  rfl

theorem val_lt (x : UInt128) : x.val < 2 ^ 128 := by
  have hlo := x.lo.isLt
  have hhi := x.hi.isLt
  rw [UInt128.val]
  omega

namespace Cairo

theorem val_uint128Add (a b : UInt128) : (uint128Add a b).val = (a.val + b.val) % 2 ^ 128 := by
  have hlo := a.lo.isLt
  have hhi := a.hi.isLt
  have hlo' := b.lo.isLt
  have hhi' := b.hi.isLt
  have hone : (1 : BitVec 64).toNat = 1 := rfl
  unfold uint128Add UInt128.val
  simp only [lt_def, apply_ite toNat, BitVec.toNat_add, hone]
  split <;> omega

theorem val_uint64ToUint128 (i : BitVec 64) : (uint64ToUint128 i).val = i.toNat := by
  simp [uint64ToUint128, UInt128.val]

theorem val_uint128Negate (a : UInt128) :
    (uint128Negate a).val = (2 ^ 128 - a.val) % 2 ^ 128 := by
  have hlo := a.lo.isLt
  have hhi := a.hi.isLt
  have hone : (1 : BitVec 64).toNat = 1 := rfl
  rw [uint128Negate, val_uint128Add, val_uint64ToUint128]
  simp only [UInt128.val, BitVec.toNat_not, hone]
  omega

theorem toNat_uint64Lo32 (i : BitVec 64) : (uint64Lo32 i).toNat = i.toNat % 2 ^ 32 :=
  BitVec.toNat_setWidth ..

theorem toNat_uint64Hi32 (i : BitVec 64) : (uint64Hi32 i).toNat = i.toNat / 2 ^ 32 := by
  have hlt := i.isLt
  rw [uint64Hi32, BitVec.toNat_setWidth, BitVec.toNat_ushiftRight, Nat.shiftRight_eq_div_pow]
  omega

theorem toNat_uint32x32To64Mul (x y : BitVec 32) :
    (uint32x32To64Mul x y).toNat = x.toNat * y.toNat ∧
      x.toNat * y.toNat ≤ (2 ^ 32 - 1) * (2 ^ 32 - 1) := by
  have hx : x.toNat ≤ 2 ^ 32 - 1 := by have := x.isLt; omega
  have hy : y.toNat ≤ 2 ^ 32 - 1 := by have := y.isLt; omega
  have hle := Nat.mul_le_mul hx hy
  refine ⟨?_, hle⟩
  rw [uint32x32To64Mul, BitVec.toNat_mul, BitVec.toNat_setWidth, BitVec.toNat_setWidth,
    Nat.mod_eq_of_lt (x.isLt.trans (by decide)), Nat.mod_eq_of_lt (y.isLt.trans (by decide))]
  exact Nat.mod_eq_of_lt (hle.trans_lt (by decide))

/-- The partial products of halves of words. -/
theorem val_uint64x64To128Mul (a b : BitVec 64) :
    (uint64x64To128Mul a b).val = a.toNat * b.toNat := by
  obtain ⟨h0, hle0⟩ := toNat_uint32x32To64Mul (uint64Lo32 a) (uint64Lo32 b)
  obtain ⟨h1, hle1⟩ := toNat_uint32x32To64Mul (uint64Lo32 a) (uint64Hi32 b)
  obtain ⟨h2, hle2⟩ := toNat_uint32x32To64Mul (uint64Hi32 a) (uint64Lo32 b)
  obtain ⟨h3, hle3⟩ := toNat_uint32x32To64Mul (uint64Hi32 a) (uint64Hi32 b)
  have hwords : a.toNat * b.toNat = (uint64Lo32 a).toNat * (uint64Lo32 b).toNat +
      2 ^ 32 * ((uint64Lo32 a).toNat * (uint64Hi32 b).toNat +
        (uint64Hi32 a).toNat * (uint64Lo32 b).toNat) +
      2 ^ 64 * ((uint64Hi32 a).toNat * (uint64Hi32 b).toNat) := by
    simp only [toNat_uint64Lo32, toNat_uint64Hi32]
    conv => lhs; rw [← Nat.div_add_mod a.toNat (2 ^ 32), ← Nat.div_add_mod b.toNat (2 ^ 32)]
    ring
  rw [hwords, ← h0, ← h1, ← h2, ← h3]
  rw [← h0] at hle0
  rw [← h1] at hle1
  rw [← h2] at hle2
  rw [← h3] at hle3
  unfold uint64x64To128Mul UInt128.val
  dsimp only
  generalize uint32x32To64Mul (uint64Lo32 a) (uint64Lo32 b) = r0 at hle0 ⊢
  generalize uint32x32To64Mul (uint64Lo32 a) (uint64Hi32 b) = r1 at hle1 ⊢
  generalize uint32x32To64Mul (uint64Hi32 a) (uint64Lo32 b) = r2 at hle2 ⊢
  generalize uint32x32To64Mul (uint64Hi32 a) (uint64Hi32 b) = r3 at hle3 ⊢
  have hmid : (r1 + r0 >>> 32 + r2).toNat = (r1.toNat + r0.toNat / 2 ^ 32 + r2.toNat) % 2 ^ 64 := by
    rw [BitVec.toNat_add, BitVec.toNat_add, BitVec.toNat_ushiftRight, Nat.shiftRight_eq_div_pow,
      Nat.mod_add_mod]
  generalize r1 + r0 >>> 32 + r2 = mid at hmid ⊢
  have hhi : (if mid < r2 then r3 + uint64Carry32 else r3).toNat =
      if mid.toNat < r2.toNat then r3.toNat + 2 ^ 32 else r3.toNat := by
    have hcarry : uint64Carry32.toNat = 2 ^ 32 := rfl
    by_cases hlt : mid < r2
    · rw [if_pos hlt, if_pos (lt_def.mp hlt), BitVec.toNat_add, hcarry, Nat.mod_eq_of_lt (by omega)]
    · rw [if_neg hlt, if_neg (mt lt_def.mpr hlt)]
  have hlow : (r0 &&& 0xffffffff).toNat = r0.toNat % 2 ^ 32 := by
    rw [toNat_and]
    exact Nat.and_two_pow_sub_one_eq_mod _ 32
  rw [BitVec.toNat_add, hhi, BitVec.toNat_add, hlow, BitVec.toNat_ushiftRight,
    BitVec.toNat_shiftLeft, Nat.shiftRight_eq_div_pow, Nat.shiftLeft_eq]
  split <;> omega

theorem val_uint128Lsl_word (a : UInt128) : (uint128Lsl a 64).val = a.lo.toNat * 2 ^ 64 := by
  simp [uint128Lsl, UInt128.val]

/-- The parts of a native product, but the high one is looked at. -/
theorem umul_eq {a b : UInt128} (ha : a.val ≤ 2 ^ 127) (hb : b.val ≤ 2 ^ 127) :
    (umul a b).map UInt128.bits = if 2 ^ 64 ≤ a.hi.toNat * b.hi.toNat then none
      else some (ofNat 128 (a.val * b.val / 2 ^ 64)) := by
  have hlo := val_uint64x64To128Mul a.lo b.lo
  have hhi := val_uint64x64To128Mul a.hi b.hi
  have hmid := val_uint128Add (uint64x64To128Mul a.lo b.hi) (uint64x64To128Mul a.hi b.lo)
  rw [val_uint64x64To128Mul, val_uint64x64To128Mul] at hmid
  have hwords := mul_div_words a.lo.toNat a.hi.toNat b.lo.toNat b.hi.toNat
  have hal := a.lo.isLt
  have hbl := b.lo.isLt
  have hah : a.hi.toNat ≤ 2 ^ 63 := by unfold UInt128.val at ha; omega
  have hbh : b.hi.toNat ≤ 2 ^ 63 := by unfold UInt128.val at hb; omega
  have hmid₁ := Nat.mul_le_mul hal.le hbh
  have hmid₂ := Nat.mul_le_mul hah hbl.le
  unfold umul
  dsimp only
  generalize uint64x64To128Mul a.lo b.lo = loPart at hlo ⊢
  generalize uint64x64To128Mul a.hi b.hi = hiPart at hhi ⊢
  generalize uint128Add (uint64x64To128Mul a.lo b.hi) (uint64x64To128Mul a.hi b.lo) = midPart
    at hmid ⊢
  have hloPart := loPart.lo.isLt
  have hhiPart := hiPart.lo.isLt
  have hmidPart := midPart.lo.isLt
  have hover : hiPart.hi ≠ 0 ↔ 2 ^ 64 ≤ a.hi.toNat * b.hi.toNat := by
    rw [ne_eq, BitVec.toNat_eq, ← hhi, UInt128.val]
    show ¬hiPart.hi.toNat = 0 ↔ _
    omega
  by_cases habort : 2 ^ 64 ≤ a.hi.toNat * b.hi.toNat
  · rw [if_pos (hover.mpr habort), if_pos habort]
    rfl
  · rw [if_neg (mt hover.mp habort), if_neg habort]
    refine congrArg some (eq_of_toNat_eq ?_)
    rw [toNat_bits, val_uint128Add, val_uint128Add, val_uint128Lsl_word, BitVec.toNat_ofNat]
    have hres := val_uint128Add (uint64ToUint128 midPart.hi) (uint64ToUint128 hiPart.lo)
    rw [val_uint64ToUint128, val_uint64ToUint128] at hres ⊢
    have hval : a.val * b.val / 2 ^ 64 = 2 ^ 64 * (a.hi.toNat * b.hi.toNat) +
        (a.lo.toNat * b.hi.toNat + a.hi.toNat * b.lo.toNat) + a.lo.toNat * b.lo.toNat / 2 ^ 64 := by
      rw [← hwords, UInt128.val, UInt128.val, mul_comm (2 ^ 64), mul_comm (2 ^ 64)]
    rw [hval]
    unfold UInt128.val at hlo hmid hhi hres
    omega

theorem bits_uint128Negate (x : UInt128) : (uint128Negate x).bits = -x.bits := by
  refine eq_of_toNat_eq ?_
  rw [toNat_bits, val_uint128Negate, toNat_neg, toNat_bits]

theorem val_magnitude (x : UInt128) :
    (if x.hi.msb then uint128Negate x else x).val = x.bits.toInt.natAbs := by
  rw [← toNat_magnitude, ← toNat_bits, msb_bits]
  split
  · rw [bits_uint128Negate]
  · rfl

theorem mul_eq (a b : UInt128) : (mul a b).map UInt128.bits =
    if 2 ^ 64 ≤ a.bits.toInt.natAbs / 2 ^ 64 * (b.bits.toInt.natAbs / 2 ^ 64) then none
    else some (ofInt 128 (product a.bits b.bits)) := by
  have hhi (x : UInt128) : x.hi.toNat = x.val / 2 ^ 64 := by
    have hlo := x.lo.isLt
    unfold UInt128.val
    omega
  have hsign (x y : Bool) : ((x && !y) || (!x && y)) = (x != y) := by
    cases x <;> cases y <;> rfl
  have hmul := umul_eq (by rw [val_magnitude]; exact natAbs_toInt_le a.bits)
    (by rw [val_magnitude]; exact natAbs_toInt_le b.bits)
  rw [hhi, hhi, val_magnitude, val_magnitude] at hmul
  unfold mul outputSign
  dsimp only
  show Option.map _ (umul _ _ >>= _) = _
  cases hres : umul (if a.hi.msb then uint128Negate a else a)
      (if b.hi.msb then uint128Negate b else b) with
  | none =>
    rw [hres] at hmul
    split at hmul
    · next habort =>
      rw [if_pos habort]
      rfl
    · cases hmul
  | some r =>
    rw [hres] at hmul
    split at hmul
    · cases hmul
    · next hgo =>
      rw [if_neg hgo, product, tdiv_of_signs, ← ofInt_signed, ← msb_eq_decide, ← msb_eq_decide,
        msb_bits, msb_bits, ← Option.some.inj hmul]
      show some (UInt128.bits _) = _
      rw [hsign, apply_ite UInt128.bits, bits_uint128Negate]

end Cairo

end Words

/-! ## 6. When both are right -/

/-- A product is right, and the same in both, exactly if it fits. -/
theorem mul_right_iff (a b : UInt128) : MulRight a b ↔ Fits (product a.bits b.bits) := by
  constructor
  · intro h
    exact (toInt_ofInt_iff _).mp (h.native _ (mul_eq a.bits b.bits))
  · intro h
    -- the high part of a product that fits is below `2 ^ 64`
    have hno : ¬2 ^ 64 ≤ a.bits.toInt.natAbs / 2 ^ 64 * (b.bits.toInt.natAbs / 2 ^ 64) := by
      obtain ⟨hle, hlt⟩ := h
      have hwords := mul_div_words (a.bits.toInt.natAbs % 2 ^ 64) (a.bits.toInt.natAbs / 2 ^ 64)
        (b.bits.toInt.natAbs % 2 ^ 64) (b.bits.toInt.natAbs / 2 ^ 64)
      rw [Nat.div_add_mod, Nat.div_add_mod] at hwords
      rw [product, tdiv_of_signs] at hle hlt
      revert hle hlt
      split <;> omega
    have hcairo : (Cairo.mul a b).map UInt128.bits = mul a.bits b.bits := by
      rw [Cairo.mul_eq, mul_eq, if_neg hno]
    have hexact : ExactOrAborts (mul a.bits b.bits) a.bits b.bits := fun r hr => by
      rw [mul_eq] at hr
      exact Option.some.inj hr ▸ (toInt_ofInt_iff _).mpr h
    exact ⟨hexact, hcairo ▸ hexact, hcairo⟩

/-- The number `2 ^ 32`. -/
def twoPow32 : UInt128 := ⟨0, 0x100000000⟩

/-- The square of `2 ^ 32` would be `2 ^ 64`. It is 0, and the words abort. -/
theorem square_wraps : mul twoPow32.bits twoPow32.bits = some 0 ∧
    Cairo.mul twoPow32 twoPow32 = none ∧ ¬MulRight twoPow32 twoPow32 := by
  have hzero : mul twoPow32.bits twoPow32.bits = some 0 := by decide +kernel
  refine ⟨hzero, by decide +kernel, fun h => ?_⟩
  have hwrong := h.native 0 hzero
  revert hwrong
  decide +kernel

end MoeJit.HighPrec
