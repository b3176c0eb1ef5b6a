import MoeJit.Core.Int64x64Div
import Mathlib.Data.Rat.Defs
import Mathlib.Algebra.Order.Ring.Rat

/-!
# Time units

`Time::SetResolution` computes, for each unit, the factor between the unit and the time step, and its
inverse when it is not 1. `To` and `From` multiply by the one or the other as numbers of 64.64 bits,
over native words, and `ToInteger` multiplies or divides integers.

`units_agree`: they yield the same, and `From` undoes `To`. The inverse is the quotient rounded up, so
that what it adds to a product stays below one part of the fraction.
-/

namespace MoeJit.HighPrec

open BitVec (eq_of_toNat_eq isLt ofInt ofNat toNat_add toNat_neg toNat_ofNat toNat_setWidth
  toNat_ushiftRight)

/-! ## 1. Model -/

section Model

/-- `int64x64_t(v)` -/
def ofInteger (v : BitVec 64) : BitVec 128 := v.signExtend 128 <<< 64

def getHigh (v : BitVec 128) : BitVec 64 := (v.sshiftRight 64).setWidth 64

def getInt (v : BitVec 128) : BitVec 64 :=
  let value := if v.msb then -v else v
  let retval := (value >>> 64).setWidth 64
  if v.msb then -retval else retval

/-- Round to the nearest int. -/
def round (v : BitVec 128) : BitVec 64 :=
  let value := (if v.msb then -v else v) + 1 <<< 63
  let retval := getHigh value
  if v.msb then -retval else retval

def umulByInvert (a b : BitVec 128) : BitVec 128 :=
  let ah := a >>> 64
  let bh := b >>> 64
  let al := a &&& hpMaskLo.setWidth 128
  let bl := b &&& hpMaskLo.setWidth 128
  let hi := ah * bh
  let mid := ah * bl + al * bh
  hi + mid >>> 64

/-- Completes a division by `o`, a number of 128 bits of fraction. -/
def mulByInvert (v o : BitVec 128) : BitVec 128 :=
  let a := if v.msb then -v else v
  let result := umulByInvert a o
  if v.msb then -result else result

def invert (fuel : Nat) (v : BitVec 64) : Option (BitVec 128) := do
  let result ← udiv native fuel (1 <<< 64) (v.setWidth 128)
  let tmp := mulByInvert (v.setWidth 128 <<< 64) result
  return if getHigh tmp ≠ 1 then result + 1 else result

inductive TimeUnit where
  | y | d | h | min | s | ms | us | ns | ps | fs
  deriving DecidableEq

def unitPower : TimeUnit → Int
  | .y | .d | .h => 17
  | .min => 16
  | .s => 15
  | .ms => 12
  | .us => 9
  | .ns => 6
  | .ps => 3
  | .fs => 0

def unitCoeff : TimeUnit → Nat
  | .y => 315360
  | .d => 864
  | .h => 36
  | .min => 6
  | _ => 1

/-- How to convert to or from a unit. -/
structure Information where
  toMul : Bool
  fromMul : Bool
  factor : BitVec 64
  timeTo : BitVec 128
  timeFrom : BitVec 128
  isValid : Bool

def shift (unit i : TimeUnit) : Int := unitPower i - unitPower unit

def coeffRatio (unit i : TimeUnit) : Nat :=
  if unitCoeff unit < unitCoeff i then unitCoeff i / unitCoeff unit
  else if unitCoeff i < unitCoeff unit then unitCoeff unit / unitCoeff i
  else 1

/-- `pow(10, fabs(shift)) * quotient`. It is exact, as a double too, when it is valid. -/
def unitFactor (unit i : TimeUnit) : Nat := 10 ^ (shift unit i).natAbs * coeffRatio unit i

def realFactor (unit i : TimeUnit) : ℚ := 10 ^ shift unit i * unitCoeff i / unitCoeff unit

/-- The turn of the loop for the unit `i`. -/
def Time.setResolution (fuel : Nat) (unit i : TimeUnit) (info : Information) : Option Information :=
  -- the largest `int64_t` is `2 ^ 63` as a double
  if 2 ^ 63 < unitFactor unit i then some { info with isValid := false }
  else
    let factor := BitVec.ofNat 64 (unitFactor unit i)
    if shift unit i = 0 ∧ coeffRatio unit i = 1 then
      some { toMul := true, fromMul := true, factor, timeTo := ofInteger 1, timeFrom := ofInteger 1,
             isValid := true }
    else if 1 < realFactor unit i then do
      let timeTo ← invert fuel factor
      return { toMul := false, fromMul := true, factor, timeTo, timeFrom := ofInteger factor,
               isValid := true }
    else do
      let timeFrom ← invert fuel factor
      return { toMul := true, fromMul := false, factor, timeTo := ofInteger factor, timeFrom,
               isValid := true }

def Time.toInteger (info : Information) (t : BitVec 64) : BitVec 64 :=
  if info.toMul then t * info.factor else t.sdiv info.factor

def Time.to (info : Information) (t : BitVec 64) : Option (BitVec 128) :=
  if info.toMul then mul (ofInteger t) info.timeTo else some (mulByInvert (ofInteger t) info.timeTo)

def Time.from (info : Information) (value : BitVec 128) : Option (BitVec 64) :=
  (if info.fromMul then mul value info.timeFrom
    else some (mulByInvert value info.timeFrom)).map round

end Model

/-! ## 2. Statement -/

/-- The integer result does not overflow. -/
def IntegerFits (info : Information) (t : BitVec 64) : Prop :=
  info.toMul = true →
    -2 ^ 63 ≤ t.toInt * info.factor.toInt ∧ t.toInt * info.factor.toInt < 2 ^ 63

/-- The conversions of a time step agree, and end. -/
def UnitsAgree (info : Information) (t : BitVec 64) : Prop :=
  ∃ v, Time.to info t = some v ∧ getInt v = Time.toInteger info t ∧ Time.from info v = some t

/-! ## 3. Words -/

section Words

variable {t : BitVec 64} {o v : BitVec 128}

theorem ofInteger_eq (t : BitVec 64) : ofInteger t = ofInt 128 (t.toInt * 2 ^ 64) := by
  rw [ofInteger, BitVec.shiftLeft_eq_mul_twoPow, BitVec.ofInt_mul]
  rfl

theorem toInt_bounds (t : BitVec 64) : -2 ^ 63 ≤ t.toInt ∧ t.toInt < 2 ^ 63 :=
  ⟨BitVec.le_toInt t, BitVec.toInt_lt⟩

theorem toInt_ofInteger (t : BitVec 64) : (ofInteger t).toInt = t.toInt * 2 ^ 64 := by
  obtain ⟨hle, hlt⟩ := toInt_bounds t
  rw [ofInteger_eq, toInt_ofInt_iff]
  exact ⟨by omega, by omega⟩

theorem toNat_getHigh (v : BitVec 128) : (getHigh v).toNat = v.toNat / 2 ^ 64 := by
  have hlt := v.isLt
  have hword : getHigh v = (v >>> 64).setWidth 64 := by
    refine BitVec.eq_of_getLsbD_eq fun i hi => ?_
    simp only [getHigh, BitVec.getLsbD_setWidth, BitVec.getLsbD_sshiftRight,
      BitVec.getLsbD_ushiftRight, hi, decide_true, Bool.true_and]
    rw [if_pos (by omega), decide_eq_false (by omega), Bool.not_false, Bool.true_and]
  rw [hword, toNat_setWidth, toNat_ushiftRight, Nat.shiftRight_eq_div_pow]
  omega

theorem signed_eq (x : Int) : (if decide (x < 0) then -((x.natAbs / 2 ^ 64 : Nat) : Int)
    else ((x.natAbs / 2 ^ 64 : Nat) : Int)) = x.tdiv (2 ^ 64) := by
  have hsigns := tdiv_of_signs x 1
  rw [Int.mul_one, Int.natAbs_one, mul_one, show decide ((1 : Int) < 0) = false from rfl,
    Bool.bne_false] at hsigns
  exact hsigns.symm

theorem getInt_eq (v : BitVec 128) : getInt v = ofInt 64 (v.toInt.tdiv (2 ^ 64)) := by
  have hword : ((if v.msb then -v else v) >>> 64).setWidth 64 =
      ofNat 64 (v.toInt.natAbs / 2 ^ 64) := by
    refine eq_of_toNat_eq ?_
    rw [toNat_setWidth, toNat_ushiftRight, toNat_magnitude, Nat.shiftRight_eq_div_pow, toNat_ofNat]
  unfold getInt
  dsimp only
  rw [hword, msb_eq_decide, ofInt_signed, signed_eq]

/-- Half a time step does not matter, also where the number does not hold it. -/
theorem round_eq {y : Int} (hlow : t.toInt * 2 ^ 64 - 2 ^ 63 < y)
    (hhigh : y < t.toInt * 2 ^ 64 + 2 ^ 63) : round (ofInt 128 y) = t := by
  have hv : (ofInt 128 y).toNat = _ := BitVec.toNat_ofInt y
  generalize ofInt 128 y = v at hv ⊢
  have hlt := t.isLt
  have ht := BitVec.toInt_eq_toNat_cond t
  have hhalf : (1 <<< 63 : BitVec 128).toNat = 2 ^ 63 := rfl
  refine eq_of_toNat_eq ?_
  unfold round
  dsimp only
  split
  · rw [toNat_neg, toNat_getHigh, toNat_add, hhalf, toNat_neg]
    split at ht <;> omega
  · rw [toNat_getHigh, toNat_add, hhalf]
    split at ht <;> omega

theorem toNat_umulByInvert {a b : BitVec 128} {n : Nat} (ha : a.toNat = n * 2 ^ 64)
    (hn : n ≤ 2 ^ 63) : (umulByInvert a b).toNat = n * b.toNat / 2 ^ 64 := by
  have hb := b.isLt
  have hal : a.toNat % 2 ^ 64 = 0 := by omega
  have hah : a.toNat / 2 ^ 64 = n := by omega
  have hbl : b.toNat % 2 ^ 64 < 2 ^ 64 := Nat.mod_lt _ (by decide)
  have hbh : b.toNat / 2 ^ 64 < 2 ^ 64 := by omega
  have hmid := Nat.mul_le_mul hn hbl.le
  have hhi := Nat.mul_le_mul hn hbh.le
  have hsplit : n * b.toNat = n * (b.toNat % 2 ^ 64) + 2 ^ 64 * (n * (b.toNat / 2 ^ 64)) := by
    conv => lhs; rw [← Nat.mod_add_div b.toNat (2 ^ 64)]
    ring
  rw [hsplit, Nat.add_mul_div_left _ _ (by decide)]
  simp only [umulByInvert, toNat_add, BitVec.toNat_mul, toNat_ushiftRight,
    toNat_and_mask, Nat.shiftRight_eq_div_pow, hal, hah, Nat.zero_mul]
  generalize n * (b.toNat % 2 ^ 64) = mid at *
  generalize n * (b.toNat / 2 ^ 64) = hi at *
  omega

theorem mulByInvert_eq (t : BitVec 64) (o : BitVec 128) :
    mulByInvert (ofInteger t) o = ofInt 128 ((t.toInt * o.toNat).tdiv (2 ^ 64)) := by
  obtain ⟨hle, hlt⟩ := toInt_bounds t
  have hresult : umulByInvert (if (ofInteger t).msb then -ofInteger t else ofInteger t) o =
      ofNat 128 (t.toInt.natAbs * o.toNat / 2 ^ 64) := by
    refine eq_of_toNat_eq ?_
    have hmag := toNat_magnitude (ofInteger t)
    rw [toInt_ofInteger, Int.natAbs_mul] at hmag
    have hval := toNat_umulByInvert (b := o) hmag (by omega)
    rw [toNat_ofNat, hval, Nat.mod_eq_of_lt (hval ▸ isLt _)]
  have hsign : decide (t.toInt * 2 ^ 64 < 0) = decide (t.toInt < 0) := decide_eq_decide.mpr (by omega)
  have hpos : decide (((o.toNat : Nat) : Int) < 0) = false := decide_eq_false (by omega)
  unfold mulByInvert
  dsimp only
  rw [hresult, msb_eq_decide, toInt_ofInteger, hsign, ofInt_signed, tdiv_of_signs, hpos,
    Bool.bne_false, Int.natAbs_natCast]

end Words

/-! ## 4. The inverse -/

section Inverse

variable {F inv : Nat}

/-- One, rounded up, in parts of which `2 ^ 128` make one. -/
structure IsInverse (inv F : Nat) : Prop where
  one_lt : 1 < F
  lt : F < 2 ^ 63
  low : 2 ^ 128 ≤ inv * F
  high : inv * F < 2 ^ 128 + F

theorem invert_spec {fuel : Nat} {v : BitVec 64} (hfuel : digits < fuel) (hone : 1 < v.toNat)
    (hlt : v.toNat < 2 ^ 63) : ∃ r, invert fuel v = some r ∧ IsInverse r.toNat v.toNat := by
  have hword : native.val (v.setWidth 128) = v.toNat := by
    show (v.setWidth 128).toNat = v.toNat
    rw [toNat_setWidth, Nat.mod_eq_of_lt (v.isLt.trans (by decide))]
  have hquo : 2 ^ 64 * 2 ^ digits / v.toNat ≤ 2 ^ 64 * 2 ^ digits / 2 :=
    Nat.div_le_div_left hone (by decide)
  obtain ⟨r, hr, hval⟩ := lawful_native.exists_udiv (a := 1 <<< 64) rfl hword (by omega) (by omega)
    (hquo.trans_lt (by decide)) hfuel
  change r.toNat = 2 ^ 128 / v.toNat at hval
  have hmod := Nat.div_add_mod (2 ^ 128) v.toNat
  have hrem : 2 ^ 128 % v.toNat < v.toNat := Nat.mod_lt _ (by omega)
  rw [← hval, mul_comm] at hmod
  have htmp : (getHigh (mulByInvert (v.setWidth 128 <<< 64) r)).toNat =
      r.toNat * v.toNat / 2 ^ 64 / 2 ^ 64 := by
    have hpos : v.toInt = v.toNat := BitVec.toInt_eq_toNat_of_lt (by omega)
    have hsame : v.setWidth 128 <<< 64 = ofInteger v := by
      rw [ofInteger, BitVec.signExtend_eq_setWidth_of_msb_false]
      rw [BitVec.msb_eq_decide, decide_eq_false (by omega)]
    rw [hsame, mulByInvert_eq, toNat_getHigh, hpos, ← Nat.cast_mul, mul_comm]
    show (ofInt 128 ((r.toNat * v.toNat / 2 ^ 64 : Nat) : Int)).toNat / 2 ^ 64 = _
    rw [BitVec.ofInt_natCast, toNat_ofNat, Nat.mod_eq_of_lt (by omega)]
  unfold invert
  rw [hr, Option.bind_eq_bind, Option.bind_some]
  dsimp only
  generalize getHigh (mulByInvert (v.setWidth 128 <<< 64) r) = tmp at htmp ⊢
  by_cases hexact : tmp = 1
  · subst hexact
    have hle : 2 ^ 128 ≤ r.toNat * v.toNat := by
      have : (1 : BitVec 64).toNat = 1 := rfl
      omega
    exact ⟨r, congrArg some (if_neg (not_not.mpr rfl)), hone, hlt, hle, by omega⟩
  · have hshort : r.toNat * v.toNat < 2 ^ 128 := by
      by_contra hfull
      exact hexact (eq_of_toNat_eq (htmp.trans (by show _ = 1; omega)))
    have hsucc : (r + 1).toNat = r.toNat + 1 := by
      rw [toNat_add]
      exact Nat.mod_eq_of_lt (lt_of_le_of_lt (Nat.succ_le_succ (hval ▸ hquo)) (by decide))
    refine ⟨r + 1, congrArg some (if_pos hexact), hone, hlt, ?_, ?_⟩ <;>
    · rw [hsucc, Nat.add_mul]
      omega

variable (h : IsInverse inv F)
include h

theorem IsInverse.mul_bounds {n : Nat} (hn : n ≤ 2 ^ 63) :
    n * 2 ^ 128 ≤ n * inv * F ∧ n * inv * F < n * 2 ^ 128 + 2 ^ 126 := by
  obtain ⟨-, hlt, hlow, hhigh⟩ := h
  have hle := Nat.mul_le_mul_left n hlow
  have hle' := Nat.mul_le_mul_left n hhigh.le
  have hrest := Nat.mul_le_mul hn (show F ≤ 2 ^ 63 - 1 by omega)
  rw [Nat.mul_add] at hle'
  rw [mul_assoc]
  exact ⟨hle, by omega⟩

theorem IsInverse.quotient_eq {n : Nat} (hn : n ≤ 2 ^ 63) : n * inv / 2 ^ 64 / 2 ^ 64 = n / F := by
  obtain ⟨hlow, hhigh⟩ := h.mul_bounds hn
  have hF : 0 < F := Nat.zero_lt_of_lt h.one_lt
  have hnext : n + 1 ≤ F * (n / F) + F := by
    have hdiv := Nat.div_add_mod n F
    have hmod := Nat.mod_lt n hF
    omega
  rw [Nat.div_div_eq_div_mul, ← pow_add]
  refine Nat.div_eq_of_lt_le ?_ ?_
  · refine Nat.le_of_mul_le_mul_right ?_ hF
    calc n / F * 2 ^ (64 + 64) * F = F * (n / F) * 2 ^ 128 := by ring
      _ ≤ n * 2 ^ 128 := Nat.mul_le_mul_right _ (Nat.mul_div_le n F)
      _ ≤ n * inv * F := hlow
  · refine Nat.lt_of_mul_lt_mul_right (a := F) ?_
    calc n * inv * F < n * 2 ^ 128 + 2 ^ 126 := hhigh
      _ ≤ n * 2 ^ 128 + 2 ^ 128 := Nat.add_le_add_left (by decide) _
      _ = (n + 1) * 2 ^ 128 := (Nat.succ_mul n _).symm
      _ ≤ (F * (n / F) + F) * 2 ^ 128 := Nat.mul_le_mul_right _ hnext
      _ = (n / F + 1) * 2 ^ (64 + 64) * F := by ring

/-- What the division leaves out is less than half a time step after the multiplication. -/
theorem IsInverse.product_near {n : Nat} (hn : n ≤ 2 ^ 63) :
    n * 2 ^ 64 < n * inv / 2 ^ 64 * F + 2 ^ 63 ∧ n * inv / 2 ^ 64 * F < n * 2 ^ 64 + 2 ^ 63 := by
  obtain ⟨hlow, hhigh⟩ := h.mul_bounds hn
  have hF := h.lt
  have hdiv := Nat.div_add_mod (n * inv) (2 ^ 64)
  have hmod : n * inv % 2 ^ 64 < 2 ^ 64 := Nat.mod_lt _ (by decide)
  have hsplit : n * inv * F = 2 ^ 64 * (n * inv / 2 ^ 64 * F) + n * inv % 2 ^ 64 * F := by
    conv => lhs; rw [← hdiv]
    ring
  have hrest : n * inv % 2 ^ 64 * F ≤ 2 ^ 64 * F := Nat.mul_le_mul_right _ hmod.le
  omega

/-- Nothing is left out where the unit is shorter than the time step. -/
theorem IsInverse.multiple_eq {n : Nat} (hfits : n * F ≤ 2 ^ 63) :
    n * F * inv / 2 ^ 64 = n * 2 ^ 64 := by
  obtain ⟨-, -, hlow, hhigh⟩ := h
  have hle := Nat.mul_le_mul_left n hlow
  have hle' := Nat.mul_le_mul_left n hhigh.le
  rw [Nat.mul_add] at hle'
  rw [mul_assoc, mul_comm F]
  omega

end Inverse

/-! ## 5. Both ways -/

section Signs

variable {F inv : Nat} {z : Int} (h : IsInverse inv F)
include h

theorem IsInverse.tdiv_eq (hz : z.natAbs ≤ 2 ^ 63) :
    ((z * inv).tdiv (2 ^ 64)).tdiv (2 ^ 64) = z.tdiv F := by
  have hquot := congrArg (Nat.cast (R := Int)) (h.quotient_eq hz)
  rcases Int.natAbs_eq z with hsign | hsign
  · rw [hsign]
    exact hquot
  · rw [hsign, Int.neg_mul, Int.neg_tdiv, Int.neg_tdiv, Int.neg_tdiv]
    exact congrArg Neg.neg hquot

theorem IsInverse.tdiv_near (hz : z.natAbs ≤ 2 ^ 63) :
    z * 2 ^ 64 - 2 ^ 63 < (z * inv).tdiv (2 ^ 64) * F ∧
      (z * inv).tdiv (2 ^ 64) * F < z * 2 ^ 64 + 2 ^ 63 := by
  obtain ⟨hlow, hhigh⟩ := h.product_near hz
  have hcast : (z.natAbs * inv : Int).tdiv (2 ^ 64) * F =
      ((z.natAbs * inv / 2 ^ 64 * F : Nat) : Int) := rfl
  rcases Int.natAbs_eq z with hsign | hsign
  · rw [hsign, hcast]
    omega
  · rw [hsign, Int.neg_mul _ (inv : Int), Int.neg_tdiv, Int.neg_mul _ (F : Int), hcast]
    omega

theorem IsInverse.tdiv_multiple (hz : (z * F).natAbs ≤ 2 ^ 63) :
    (z * F * inv).tdiv (2 ^ 64) = z * 2 ^ 64 := by
  rw [Int.natAbs_mul, Int.natAbs_natCast] at hz
  have hquot := congrArg (Nat.cast (R := Int)) (h.multiple_eq hz)
  rcases Int.natAbs_eq z with hsign | hsign
  · rw [hsign]
    exact hquot
  · rw [hsign, Int.neg_mul, Int.neg_mul, Int.neg_tdiv, Int.neg_mul]
    exact congrArg Neg.neg hquot

end Signs

section Info

variable {fuel : Nat} {info : Information} {t a b factor : BitVec 64} {inv : BitVec 128}

theorem natAbs_toInt_word (t : BitVec 64) : t.toInt.natAbs ≤ 2 ^ 63 := by
  obtain ⟨hle, hlt⟩ := toInt_bounds t
  omega

theorem mul_ofInteger (hlow : -2 ^ 63 ≤ a.toInt * b.toInt) (hhigh : a.toInt * b.toInt < 2 ^ 63) :
    (a * b).toInt = a.toInt * b.toInt ∧
      mul (ofInteger a) (ofInteger b) = some (ofInteger (a * b)) := by
  have hmul : (a * b).toInt = a.toInt * b.toInt := by
    rw [BitVec.toInt_mul]
    exact Int.bmod_eq_of_le (by omega) (by omega)
  have hshift : a.toInt * 2 ^ 64 * (b.toInt * 2 ^ 64) = a.toInt * b.toInt * 2 ^ 64 * 2 ^ 64 := by
    ring
  refine ⟨hmul, ?_⟩
  rw [mul_eq, product, toInt_ofInteger, toInt_ofInteger, hshift, Int.mul_tdiv_cancel _ (by decide),
    ofInteger_eq, hmul]

theorem getInt_ofInteger (t : BitVec 64) : getInt (ofInteger t) = t := by
  rw [getInt_eq, toInt_ofInteger, Int.mul_tdiv_cancel _ (by decide), BitVec.ofInt_toInt]

theorem round_ofInteger (t : BitVec 64) : round (ofInteger t) = t := by
  rw [ofInteger_eq]
  exact round_eq (by omega) (by omega)

section

variable (h : IsInverse inv.toNat factor.toNat)
include h

theorem IsInverse.toInt_eq :
    factor.toInt = factor.toNat := by
  have hlt := h.lt
  exact BitVec.toInt_eq_toNat_of_lt (by omega)

theorem IsInverse.longer (t : BitVec 64) :
    getInt (mulByInvert (ofInteger t) inv) = t.sdiv factor ∧
      (mul (mulByInvert (ofInteger t) inv) (ofInteger factor)).map round = some t := by
  have hz := natAbs_toInt_word t
  have htdiv := h.tdiv_eq hz
  obtain ⟨hlow, hhigh⟩ := h.tdiv_near hz
  have hval : (mulByInvert (ofInteger t) inv).toInt = (t.toInt * inv.toNat).tdiv (2 ^ 64) := by
    rw [mulByInvert_eq, toInt_ofInt_iff]
    generalize (t.toInt * inv.toNat).tdiv (2 ^ 64) = w at hlow hhigh ⊢
    have hmul := Int.natAbs_mul w factor.toNat
    have hdouble := Nat.mul_le_mul_left w.natAbs h.one_lt
    rw [Int.natAbs_natCast] at hmul
    exact ⟨by omega, by omega⟩
  rw [← hval] at htdiv hlow hhigh
  constructor
  · rw [getInt_eq, htdiv, ← h.toInt_eq]
    refine BitVec.eq_of_toInt_eq ?_
    rw [BitVec.toInt_ofInt, BitVec.toInt_sdiv]
  · rw [mul_eq, product, toInt_ofInteger, ← Int.mul_assoc, Int.mul_tdiv_cancel _ (by decide),
      Option.map_some, h.toInt_eq, round_eq hlow hhigh]

theorem IsInverse.shorter
    (hlow : -2 ^ 63 ≤ t.toInt * factor.toInt) (hhigh : t.toInt * factor.toInt < 2 ^ 63) :
    round (mulByInvert (ofInteger (t * factor)) inv) = t := by
  obtain ⟨hmul, -⟩ := mul_ofInteger hlow hhigh
  rw [mulByInvert_eq, hmul, h.toInt_eq, h.tdiv_multiple]
  · exact round_eq (by omega) (by omega)
  · rw [← h.toInt_eq]
    omega

end

/-- What a valid unit is given. -/
inductive Converts : Information → Prop
  | same : Converts ⟨true, true, 1, ofInteger 1, ofInteger 1, true⟩
  | longer {factor : BitVec 64} {inv : BitVec 128} (h : IsInverse inv.toNat factor.toNat) :
      Converts ⟨false, true, factor, inv, ofInteger factor, true⟩
  | shorter {factor : BitVec 64} {inv : BitVec 128} (h : IsInverse inv.toNat factor.toNat) :
      Converts ⟨true, false, factor, ofInteger factor, inv, true⟩

theorem Converts.agree (h : Converts info) (hfits : IntegerFits info t) : UnitsAgree info t := by
  cases h with
  | same =>
    obtain ⟨hlow, hhigh⟩ := hfits rfl
    obtain ⟨-, hprod⟩ := mul_ofInteger hlow hhigh
    have hone : t * 1 = t := BitVec.mul_one t
    rw [hone] at hprod
    exact ⟨ofInteger t, hprod, (getInt_ofInteger t).trans hone.symm,
      (congrArg (Option.map round) hprod).trans (congrArg some (round_ofInteger t))⟩
  | longer h =>
    obtain ⟨hint, hround⟩ := h.longer t
    exact ⟨_, rfl, hint, hround⟩
  | shorter h =>
    obtain ⟨hlow, hhigh⟩ := hfits rfl
    obtain ⟨-, hprod⟩ := mul_ofInteger hlow hhigh
    exact ⟨_, hprod, getInt_ofInteger _, congrArg some (h.shorter hlow hhigh)⟩

theorem unitFactor_bounds (unit i : TimeUnit) (hvalid : unitFactor unit i ≤ 2 ^ 63) :
    unitFactor unit i < 2 ^ 63 ∧ (shift unit i = 0 ∧ coeffRatio unit i = 1 ∧ unitFactor unit i = 1 ∨
        ¬(shift unit i = 0 ∧ coeffRatio unit i = 1) ∧ 1 < unitFactor unit i) := by
  revert hvalid
  cases unit <;> cases i <;> decide +kernel

theorem setResolution_spec (hfuel : digits < fuel) (unit i : TimeUnit) (old : Information) :
    ∃ info, Time.setResolution fuel unit i old = some info ∧
      (info.isValid = true ↔ unitFactor unit i ≤ 2 ^ 63) ∧ (info.isValid = true → Converts info) := by
  by_cases hvalid : 2 ^ 63 < unitFactor unit i
  · exact ⟨_, if_pos hvalid, iff_of_false Bool.false_ne_true (Nat.not_le.mpr hvalid),
      fun h => absurd h Bool.false_ne_true⟩
  have hle := Nat.le_of_not_lt hvalid
  obtain ⟨hlt, ⟨hzero, hratio, hone⟩ | ⟨hother, hone⟩⟩ := unitFactor_bounds unit i hle
  · refine ⟨_, (if_neg hvalid).trans (if_pos ⟨hzero, hratio⟩), iff_of_true rfl hle, fun _ => ?_⟩
    rw [hone]
    exact .same
  · have hword : (ofNat 64 (unitFactor unit i)).toNat = unitFactor unit i := by
      rw [toNat_ofNat, Nat.mod_eq_of_lt (by omega)]
    obtain ⟨inv, hinv, hinverse⟩ := invert_spec hfuel (hone.trans_eq hword.symm)
      (hword.trans_lt hlt)
    by_cases hlonger : 1 < realFactor unit i
    · refine ⟨_, (if_neg hvalid).trans ((if_neg hother).trans ((if_pos hlonger).trans ?_)),
        iff_of_true rfl hle, fun _ => .longer hinverse⟩
      rw [hinv]
      rfl
    · refine ⟨_, (if_neg hvalid).trans ((if_neg hother).trans ((if_neg hlonger).trans ?_)),
        iff_of_true rfl hle, fun _ => .shorter hinverse⟩
      rw [hinv]
      rfl

end Info

/-- The conversions of all valid units agree, for every resolution. -/
theorem units_agree {fuel : Nat} (hfuel : digits < fuel) (unit i : TimeUnit) (old : Information) :
    ∃ info, Time.setResolution fuel unit i old = some info ∧
      (info.isValid = true ↔ unitFactor unit i ≤ 2 ^ 63) ∧
      (info.isValid = true → ∀ t, IntegerFits info t → UnitsAgree info t) := by
  obtain ⟨info, hinfo, hvalid, hconverts⟩ := setResolution_spec hfuel unit i old
  exact ⟨info, hinfo, hvalid, fun h t hfits => (hconverts h).agree hfits⟩

theorem units_agree_second : ∃ info,
    Time.setResolution 65 .ns .s ⟨false, false, 0, 0, 0, false⟩ = some info ∧ UnitsAgree info 1 := by
  obtain ⟨info, hinfo, hvalid, hagree⟩ :=
    units_agree (show digits < 65 by decide) .ns .s ⟨false, false, 0, 0, 0, false⟩
  refine ⟨info, hinfo, hagree (hvalid.mpr (by decide)) 1 fun _ => ?_⟩
  rw [show (1 : BitVec 64).toInt = 1 from rfl, Int.one_mul]
  exact toInt_bounds info.factor

end MoeJit.HighPrec
