import MoeJit.Core.Int64x64

/-!
# Division of fixed-point numbers

`udiv` divides once and then takes more digits of the fraction from the remainder: it shifts the
remainder until its top bit is set or there are enough digits, and divides again. The zeros at the end
of the divisor are shifted out before. Both implementations have this loop, over their own operations.

`udiv_exact`: after at most 64 rounds the result is the quotient of the magnitudes with 64 more
binary digits. No bit of the divisor is lost: it is odd when more of it could be cast off, and not
above the remainder, since magnitudes do not exceed `2 ^ 127`.
-/

namespace MoeJit.HighPrec

/-! ## 1. Model -/

/-- The operations on unsigned numbers of 128 bits. -/
structure Wide (α : Type) where
  val : α → Nat
  add : α → α → α
  lsl : α → Nat → α
  rsl : α → Nat → α
  divrem : α → α → α × α
  lt : α → α → Bool
  isZero : α → Bool
  /-- `den & 0x1`. -/
  lowBit : α → Bool
  /-- The bit of `HP128_MASK_HI_BIT`. -/
  highBit : α → Bool

section Division

variable {α : Type} (W : Wide α)

/-- Number of fraction digits (bits) we need. -/
def digits : Nat := 64

/-- Skip trailing zeros in divisor. -/
def skipTrailing (shift : Nat) (den : α) : Nat × α :=
  if shift < digits ∧ !W.lowBit den then skipTrailing (shift + 1) (W.rsl den 1) else (shift, den)
termination_by digits - shift

/-- Skip leading zeros in remainder. -/
def skipLeading (digis shift : Nat) (rem : α) : Nat × α :=
  if digis + shift < digits ∧ !W.highBit rem then skipLeading digis (shift + 1) (W.lsl rem 1)
  else (shift, rem)
termination_by digits - (digis + shift)

/-- Cast off denominator bits. -/
def castOff (digis shift : Nat) (rem den : α) : Nat × α :=
  if digis + shift < digits ∧ (!W.lowBit den || W.lt rem den) then
    castOff digis (shift + 1) rem (W.rsl den 1)
  else (shift, den)
termination_by digits - (digis + shift)

/-- The rounds of the loop, which may not have an end. -/
def rounds : Nat → Nat → Nat → α → α → α → Option (α × Nat)
  | 0, _, _, _, _, _ => none
  | fuel + 1, digis, shift, rem, den, result =>
    if digis < digits ∧ !W.isZero rem then
      let (shift, rem) := skipLeading W digis shift rem
      let (shift, den) := castOff W digis shift rem den
      let (quo, rem) := W.divrem rem den
      rounds fuel (digis + shift) 0 rem den (W.add (W.lsl result shift) quo)
    else some (result, digis)

def udiv (fuel : Nat) (a b : α) : Option α := do
  let (quo, rem) := W.divrem a b
  let (shift, den) := skipTrailing W 0 b
  let (result, digis) ← rounds W fuel 0 shift rem den quo
  return if digis < digits then W.lsl result (digits - digis) else result

end Division

/-- The operations on `uint128_t`. -/
def native : Wide (BitVec 128) where
  val := BitVec.toNat
  add a b := a + b
  lsl a shift := a <<< shift
  rsl a shift := a >>> shift
  divrem a b := (a / b, a % b)
  lt a b := a.ult b
  isZero a := a == 0
  lowBit a := a.getLsbD 0
  highBit a := a.msb

namespace Cairo

def uint128Rsl (a : UInt128) (shift : Nat) : UInt128 :=
  let (a, shift) := if 64 ≤ shift then (⟨a.hi, 0⟩, shift - 64) else (a, shift)
  if shift = 0 then a
  else { lo := (a.lo >>> shift) + (a.hi <<< (64 - shift)), hi := a.hi >>> shift }

def uint128Lt (a b : UInt128) : Bool := a.hi.ult b.hi || (a.hi == b.hi && a.lo.ult b.lo)

def uint128Sub (a b : UInt128) : UInt128 :=
  let lo := a.lo - b.lo
  { hi := if a.lo < lo then a.hi - b.hi - 1 else a.hi - b.hi, lo }

/-- Normalize to make `den >= num`, but not overflow. -/
def normalize : Nat → UInt128 → UInt128 → UInt128 → UInt128 × UInt128
  | 0, _, bit, den => (bit, den)
  | fuel + 1, num, bit, den =>
    if uint128Lt den num && !den.hi.msb then
      normalize fuel num (uint128Lsl bit 1) (uint128Lsl den 1)
    else (bit, den)

/-- Generate quotient, one bit at a time. -/
def generate : Nat → UInt128 → UInt128 → UInt128 → UInt128 → UInt128 × UInt128
  | 0, _, _, num, quo => (quo, num)
  | fuel + 1, bit, den, num, quo =>
    if bit = ⟨0, 0⟩ then (quo, num)
    else
      let (num, quo) := if uint128Lt num den then (num, quo)
        else (uint128Sub num den, uint128Add quo bit)
      generate fuel (uint128Rsl bit 1) (uint128Rsl den 1) num quo

/-- Both loops have at most 128 turns. -/
def uint128Divrem (num den : UInt128) : UInt128 × UInt128 :=
  let (bit, den) := normalize 128 num (uint64ToUint128 1) den
  generate 129 bit den num (uint64ToUint128 0)

/-- The operations on `cairo_uint128_t`. -/
def wide : Wide UInt128 where
  val := UInt128.val
  add := uint128Add
  lsl := uint128Lsl
  rsl := uint128Rsl
  divrem := uint128Divrem
  lt := uint128Lt
  isZero a := a == ⟨0, 0⟩
  lowBit a := a.lo.getLsbD 0
  highBit a := a.hi.msb

end Cairo

/-! ## 2. The digits -/

/-- The operations are those of arithmetic. -/
structure Wide.Lawful {α : Type} (W : Wide α) : Prop where
  val_lt : ∀ x, W.val x < 2 ^ 128
  add : ∀ x y, W.val (W.add x y) = (W.val x + W.val y) % 2 ^ 128
  lsl : ∀ x shift, shift ≤ digits → W.val (W.lsl x shift) = W.val x * 2 ^ shift % 2 ^ 128
  rsl : ∀ x, W.val (W.rsl x 1) = W.val x / 2
  quo : ∀ x y, 0 < W.val y → W.val (W.divrem x y).1 = W.val x / W.val y
  rem : ∀ x y, 0 < W.val y → W.val (W.divrem x y).2 = W.val x % W.val y
  lt : ∀ x y, W.lt x y = decide (W.val x < W.val y)
  isZero : ∀ x, W.isZero x = decide (W.val x = 0)
  lowBit : ∀ x, W.lowBit x = decide (W.val x % 2 = 1)
  highBit : ∀ x, W.highBit x = decide (2 ^ 127 ≤ W.val x)

namespace Wide.Lawful

variable {α : Type} {W : Wide α} (h : W.Lawful) {a b rem den result : α} {digis shift fuel : Nat}

include h

theorem skipTrailing_spec (den : α) (hshift : shift ≤ digits) : ∃ k,
    (skipTrailing W shift den).1 = shift + k ∧ shift + k ≤ digits ∧
      W.val den = 2 ^ k * W.val (skipTrailing W shift den).2 ∧
      (shift + k = digits ∨ W.val (skipTrailing W shift den).2 % 2 = 1) := by
  fun_induction skipTrailing W shift den with
  | case1 shift den hgo ih =>
    obtain ⟨hlt, heven⟩ := hgo
    obtain ⟨k, hk, hle, hval, hend⟩ := ih hlt
    rw [h.lowBit, Bool.not_eq_true', decide_eq_false_iff_not] at heven
    rw [h.rsl] at hval
    refine ⟨k + 1, hk.trans (by omega), by omega, ?_, hend.imp_left (by omega)⟩
    rw [pow_succ', mul_assoc, ← hval]
    omega
  | case2 shift den hstop =>
    refine ⟨0, rfl, hshift, (one_mul _).symm, ?_⟩
    rw [h.lowBit, not_and, Bool.not_eq_true', decide_eq_false_iff_not, not_not] at hstop
    exact (Nat.eq_or_lt_of_le hshift).imp_right hstop

theorem skipLeading_spec (rem : α) (hdigis : digis + shift ≤ digits) : ∃ k,
    (skipLeading W digis shift rem).1 = shift + k ∧ digis + (shift + k) ≤ digits ∧
      W.val (skipLeading W digis shift rem).2 = W.val rem * 2 ^ k ∧
      (digis + (shift + k) = digits ∨ 2 ^ 127 ≤ W.val (skipLeading W digis shift rem).2) := by
  fun_induction skipLeading W digis shift rem with
  | case1 shift rem hgo ih =>
    obtain ⟨hlt, hlow⟩ := hgo
    obtain ⟨k, hk, hle, hval, hend⟩ := ih hlt
    rw [h.highBit, Bool.not_eq_true', decide_eq_false_iff_not] at hlow
    rw [h.lsl _ _ (by decide), pow_one, Nat.mod_eq_of_lt (by omega)] at hval
    refine ⟨k + 1, hk.trans (by omega), by omega, ?_, hend.imp_left (by omega)⟩
    rw [hval, pow_succ', mul_assoc]
  | case2 shift rem hstop =>
    refine ⟨0, rfl, hdigis, (mul_one _).symm, ?_⟩
    rw [h.highBit, not_and, Bool.not_eq_true', decide_eq_false_iff_not, not_not] at hstop
    exact (Nat.eq_or_lt_of_le hdigis).imp_right hstop

theorem castOff_eq (hstop : digis + shift < digits → W.val den % 2 = 1 ∧ W.val den ≤ W.val rem) :
    castOff W digis shift rem den = (shift, den) := by
  unfold castOff
  refine if_neg ?_
  rw [h.lowBit, h.lt]
  rintro ⟨hlt, hcast⟩
  obtain ⟨hodd, hle⟩ := hstop hlt
  simp [hodd, not_lt.mpr hle] at hcast

omit h in
/-- The state of the loop when `q` are the digits so far: `scale` is the part of the divisor `b` that
is no longer in `den` and not counted in `shift`. -/
structure Dividing (W : Wide α) (a b : α) (digis shift : Nat) (rem den result : α) (q scale : Nat) :
    Prop where
  result : W.val result = q % 2 ^ 128
  expansion : W.val a * 2 ^ digis = q * W.val b + W.val rem * scale
  divisor : scale * (2 ^ shift * W.val den) = W.val b
  rem_lt : W.val rem < 2 ^ shift * W.val den
  bound : digis + shift ≤ digits
  odd : digis + shift = digits ∨ W.val den % 2 = 1
  pos : 0 < W.val b
  le : W.val b ≤ 2 ^ 127

theorem Dividing.round {q scale : Nat} (hd : Dividing W a b digis shift rem den result q scale)
    (hgo : digis < digits) : ∃ shift' rem' q' scale', digis < digis + shift' ∧
      (skipLeading W digis shift rem).1 = shift' ∧
      (skipLeading W digis shift rem).2 = rem' ∧ castOff W digis shift' rem' den = (shift', den) ∧
      Dividing W a b (digis + shift') 0 (W.divrem rem' den).2 den
        (W.add (W.lsl result shift') (W.divrem rem' den).1) q' scale' := by
  obtain ⟨hresult, hdigits, hdivisor, hrem, hbound, hodd, hpos, hle⟩ := hd
  obtain ⟨k, hk, hbound', hval, hend⟩ := h.skipLeading_spec rem hbound
  have hden : 0 < W.val den := Nat.pos_of_ne_zero fun hzero => by
    rw [hzero, Nat.mul_zero] at hrem
    exact absurd hrem (Nat.not_lt_zero _)
  have hdenle : W.val den ≤ 2 ^ 127 := by
    have hscale : 0 < scale := Nat.pos_of_mul_pos_right (hdivisor ▸ hpos)
    calc W.val den ≤ 2 ^ shift * W.val den := Nat.le_mul_of_pos_left _ (Nat.two_pow_pos _)
      _ ≤ scale * (2 ^ shift * W.val den) := Nat.le_mul_of_pos_left _ hscale
      _ ≤ 2 ^ 127 := hdivisor.trans_le hle
  generalize hrem' : (skipLeading W digis shift rem).2 = rem' at hval hend
  have hsplit := Nat.div_add_mod (W.val rem') (W.val den)
  refine ⟨shift + k, rem', q * 2 ^ (shift + k) + W.val rem' / W.val den, scale * 2 ^ shift,
    ?_, hk, rfl, ?_, ?_⟩
  · -- without a shift the remainder would be below the divisor and have its top bit
    by_contra hsame
    obtain ⟨rfl, rfl⟩ : shift = 0 ∧ k = 0 := by omega
    rw [pow_zero, Nat.mul_one] at hval
    rw [pow_zero, Nat.one_mul] at hrem
    omega
  · refine h.castOff_eq fun hlt => ⟨hodd.resolve_left (by omega), ?_⟩
    exact hdenle.trans (hend.resolve_left hlt.ne)
  · refine ⟨?_, ?_, ?_, ?_, hbound', hodd.imp_left fun heq => by omega, hpos, hle⟩
    · rw [h.add, h.lsl _ _ (by omega), h.quo _ _ hden, hresult, Nat.mod_mul_mod, Nat.mod_add_mod]
    · rw [h.rem _ _ hden]
      calc W.val a * 2 ^ (digis + (shift + k))
          = (W.val a * 2 ^ digis) * 2 ^ (shift + k) := by rw [pow_add, Nat.mul_assoc]
        _ = q * 2 ^ (shift + k) * W.val b + W.val rem * 2 ^ k * (scale * 2 ^ shift) := by
          rw [hdigits, pow_add]
          ring
        _ = _ := by
          rw [hval.symm.trans hsplit.symm, ← hdivisor]
          ring
    · rw [pow_zero, Nat.one_mul, Nat.mul_assoc, hdivisor]
    · rw [h.rem _ _ hden, pow_zero, Nat.one_mul]
      exact Nat.mod_lt _ hden

/-- Enough rounds come to an end. -/
theorem rounds_spec {q scale : Nat} (hd : Dividing W a b digis shift rem den result q scale)
    (hfuel : digits < fuel + digis) : ∃ result' digis' shift' rem' den' q' scale',
      rounds W fuel digis shift rem den result = some (result', digis') ∧
        Dividing W a b digis' shift' rem' den' result' q' scale' ∧
        (digis' = digits ∨ W.val rem' = 0) := by
  induction fuel generalizing digis shift rem den result q scale with
  | zero =>
    have hle := hd.bound
    omega
  | succ fuel ih =>
    unfold rounds
    rw [h.isZero]
    split
    · next hgo =>
      obtain ⟨hlt, -⟩ := hgo
      obtain ⟨shift', rem', q', scale', hmore, hshift, hrem, hcast, hd'⟩ := hd.round h hlt
      dsimp only
      rw [hshift, hrem, hcast]
      exact ih hd' (by omega)
    · next hstop =>
      refine ⟨_, _, _, _, _, _, _, rfl, hd, ?_⟩
      rw [not_and, Bool.not_eq_true', decide_eq_false_iff_not, not_not] at hstop
      exact (Nat.eq_or_lt_of_le (Nat.le_of_add_right_le hd.bound)).imp_right hstop

theorem udiv_spec (hb : 0 < W.val b) (hle : W.val b ≤ 2 ^ 127) (hfuel : digits < fuel) :
    ∃ r, udiv W fuel a b = some r ∧ W.val r = W.val a * 2 ^ digits / W.val b % 2 ^ 128 := by
  obtain ⟨k, hk, hkle, hval, hodd⟩ := h.skipTrailing_spec b (Nat.zero_le digits)
  rw [Nat.zero_add] at hk hkle hodd
  have hquo := h.quo a b hb
  have hrem := h.rem a b hb
  have hstart : Dividing W a b 0 k (W.divrem a b).2 (skipTrailing W 0 b).2 (W.divrem a b).1
      (W.val a / W.val b) 1 := by
    refine ⟨?_, ?_, ?_, ?_, (Nat.zero_add k).trans_le hkle, hodd.imp_left (Nat.zero_add k).trans,
      hb, hle⟩
    · rw [hquo, Nat.mod_eq_of_lt ((Nat.div_le_self _ _).trans_lt (h.val_lt a))]
    · rw [hrem, pow_zero, Nat.mul_one, Nat.mul_one, Nat.mul_comm]
      exact (Nat.div_add_mod _ _).symm
    · rw [Nat.one_mul, hval]
    · rw [hrem, ← hval]
      exact Nat.mod_lt _ hb
  obtain ⟨result, digis, shift, rem, den, q, scale, hrounds, hd, hend⟩ := h.rounds_spec hstart hfuel
  refine ⟨if digis < digits then W.lsl result (digits - digis) else result, ?_, ?_⟩
  · unfold udiv
    dsimp only
    rw [hk, hrounds]
    rfl
  · obtain ⟨hresult, hdigits, hdivisor, hrem, hbound, -, -, -⟩ := hd
    split
    · next hlt =>
      -- nothing was left to divide
      have hsplit : W.val a * 2 ^ digits = q * 2 ^ (digits - digis) * W.val b := by
        rw [hend.resolve_left hlt.ne, Nat.zero_mul, Nat.add_zero] at hdigits
        rw [← Nat.add_sub_cancel' hlt.le, pow_add, ← Nat.mul_assoc, hdigits, Nat.add_sub_cancel']
        · ring
        · exact hlt.le
      rw [h.lsl _ _ (Nat.sub_le _ _), hresult, Nat.mod_mul_mod, hsplit, Nat.mul_div_cancel _ hb]
    · next hlt =>
      obtain ⟨rfl, rfl⟩ : digis = digits ∧ shift = 0 := by omega
      rw [pow_zero, Nat.one_mul] at hrem hdivisor
      rw [hresult, hdigits, Nat.add_comm, Nat.add_mul_div_right _ _ hb, Nat.div_eq_of_lt,
        Nat.zero_add]
      rw [← hdivisor, Nat.mul_comm]
      exact Nat.mul_lt_mul_of_pos_left hrem (Nat.pos_of_mul_pos_right (hdivisor ▸ hb))

theorem exists_udiv {x y : Nat} (ha : W.val a = x) (hb : W.val b = y) (hpos : 0 < y)
    (hle : y ≤ 2 ^ 127) (hfits : x * 2 ^ digits / y < 2 ^ 128) (hfuel : digits < fuel) :
    ∃ r, udiv W fuel a b = some r ∧ W.val r = x * 2 ^ digits / y := by
  subst ha hb
  obtain ⟨r, hr, hval⟩ := h.udiv_spec (a := a) hpos hle hfuel
  exact ⟨r, hr, hval.trans (Nat.mod_eq_of_lt hfits)⟩

end Wide.Lawful

/-! ## 3. The operations -/

theorem lawful_native : native.Lawful where
  val_lt x := x.isLt
  add := BitVec.toNat_add
  lsl x shift _ := (BitVec.toNat_shiftLeft ..).trans (by rw [Nat.shiftLeft_eq]; rfl)
  rsl x := (BitVec.toNat_ushiftRight ..).trans (Nat.shiftRight_eq_div_pow _ 1)
  quo _ _ _ := BitVec.toNat_udiv
  rem _ _ _ := BitVec.toNat_umod
  lt _ _ := rfl
  isZero x := by
    show (x == 0) = _
    rw [Bool.eq_iff_iff, beq_iff_eq, decide_eq_true_iff, BitVec.toNat_eq]
    rfl
  lowBit x := by
    show x.getLsbD 0 = _
    rw [BitVec.getLsbD, Nat.testBit_zero]
    rfl
  highBit x := BitVec.msb_eq_decide x

namespace Cairo

variable {a b num den bit quo : UInt128}

theorem uint128Lt_eq (a b : UInt128) : uint128Lt a b = decide (a.val < b.val) := by
  have ha := a.lo.isLt
  have hb := b.lo.isLt
  rw [Bool.eq_iff_iff, decide_eq_true_iff]
  simp only [uint128Lt, Bool.or_eq_true, Bool.and_eq_true, beq_iff_eq, BitVec.ult,
    decide_eq_true_iff, BitVec.toNat_eq, UInt128.val]
  omega

theorem eq_zero_iff (a : UInt128) : a = ⟨0, 0⟩ ↔ a.val = 0 := by
  constructor
  · rintro rfl
    rfl
  · intro h
    obtain ⟨lo, hi⟩ := a
    have hlo : lo.toNat = 0 := by simp only [UInt128.val] at h; omega
    have hhi : hi.toNat = 0 := by simp only [UInt128.val] at h; omega
    rw [BitVec.eq_of_toNat_eq (y := 0) hlo, BitVec.eq_of_toNat_eq (y := 0) hhi]

theorem val_uint128Lsl (a : UInt128) {shift : Nat} (h : shift ≤ 64) :
    (uint128Lsl a shift).val = a.val * 2 ^ shift % 2 ^ 128 := by
  have hlo := a.lo.isLt
  have hhi := a.hi.isLt
  rcases h.eq_or_lt with rfl | hlt
  · rw [val_uint128Lsl_word]
    unfold UInt128.val
    omega
  · have hword : a.lo.toNat / 2 ^ (64 - shift) = a.lo.toNat * 2 ^ shift / 2 ^ 64 := by
      conv => rhs; rw [show 2 ^ 64 = 2 ^ (64 - shift) * 2 ^ shift by rw [← pow_add]; congr 1; omega]
      rw [Nat.mul_div_mul_right _ _ (Nat.two_pow_pos _)]
    unfold uint128Lsl
    rw [if_neg (by omega)]
    dsimp only
    split
    · next hzero =>
      rw [hzero, pow_zero, mul_one, Nat.mod_eq_of_lt (val_lt a)]
    · simp only [UInt128.val, BitVec.toNat_add, BitVec.toNat_shiftLeft, BitVec.toNat_ushiftRight,
        Nat.shiftLeft_eq, Nat.shiftRight_eq_div_pow, hword, Nat.add_mul]
      rw [Nat.mul_right_comm]
      generalize a.lo.toNat * 2 ^ shift = lo
      generalize a.hi.toNat * 2 ^ shift = hi
      omega

theorem val_uint128Rsl_one (a : UInt128) : (uint128Rsl a 1).val = a.val / 2 := by
  have hlo := a.lo.isLt
  have hhi := a.hi.isLt
  unfold uint128Rsl UInt128.val
  simp [Nat.shiftLeft_eq, Nat.shiftRight_eq_div_pow]
  omega

theorem val_uint128Sub (h : b.val ≤ a.val) : (uint128Sub a b).val = a.val - b.val := by
  have ha := a.lo.isLt
  have hb := b.lo.isLt
  have ha' := a.hi.isLt
  have hone : (1 : BitVec 64).toNat = 1 := rfl
  unfold UInt128.val at h
  unfold uint128Sub UInt128.val
  simp only [BitVec.lt_def, apply_ite BitVec.toNat, BitVec.toNat_sub, hone]
  split <;> omega

theorem msb_hi (a : UInt128) : a.hi.msb = decide (2 ^ 127 ≤ a.val) := by
  have hlo := a.lo.isLt
  rw [BitVec.msb_eq_decide, Bool.eq_iff_iff, decide_eq_true_iff, decide_eq_true_iff, UInt128.val]
  omega

/-- The divisor is doubled until twice as much exceeds the number, with `bit` beside it. -/
theorem normalize_spec (num : UInt128) {d j fuel : Nat} (hd : 0 < d) (hden : den.val = d * 2 ^ j)
    (hbit : bit.val = 2 ^ j) (hj : j < 128) (hfuel : 128 ≤ fuel + j) : ∃ j' < 128,
    (normalize fuel num bit den).1.val = 2 ^ j' ∧
      (normalize fuel num bit den).2.val = d * 2 ^ j' ∧ num.val < d * 2 ^ (j' + 1) := by
  induction fuel generalizing bit den j with
  | zero => omega
  | succ fuel ih =>
    unfold normalize
    rw [uint128Lt_eq, msb_hi]
    split
    · next hgo =>
      simp only [Bool.and_eq_true, decide_eq_true_iff, Bool.not_eq_true',
        decide_eq_false_iff_not] at hgo
      have hle : 2 ^ j ≤ den.val := hden ▸ Nat.le_mul_of_pos_left _ hd
      have hj' : j + 1 < 128 := by
        by_contra hlast
        obtain rfl : j = 127 := by omega
        omega
      refine ih ?_ ?_ hj' (by omega)
      · rw [val_uint128Lsl _ (by decide), pow_one, Nat.mod_eq_of_lt (by omega), hden, pow_succ,
          mul_assoc]
      · rw [val_uint128Lsl _ (by decide), pow_one, Nat.mod_eq_of_lt (by omega), hbit, pow_succ]
    · next hstop =>
      refine ⟨j, hj, hbit, hden, ?_⟩
      have hlt := val_lt num
      simp only [Bool.and_eq_true, decide_eq_true_iff, Bool.not_eq_true',
        decide_eq_false_iff_not] at hstop
      rw [pow_succ, ← mul_assoc, ← hden]
      have hle : 2 ^ j ≤ den.val := hden ▸ Nat.le_mul_of_pos_left _ hd
      have hpos := Nat.two_pow_pos j
      omega

/-- Each turn takes the divisor off when it can. -/
theorem generate_spec {d total j fuel : Nat} (hden : den.val = d * 2 ^ j / 2)
    (hbit : bit.val = 2 ^ j / 2) (hnum : num.val < d * 2 ^ j)
    (htotal : quo.val * d + num.val = total) (hlt : total < 2 ^ 128) (hfuel : j < fuel) :
    (generate fuel bit den num quo).1.val * d + (generate fuel bit den num quo).2.val = total ∧
      (generate fuel bit den num quo).2.val < d := by
  induction fuel generalizing bit den num quo j with
  | zero => exact absurd hfuel (Nat.not_lt_zero _)
  | succ fuel ih =>
    unfold generate
    simp only [eq_zero_iff]
    cases j with
    | zero =>
      have hzero : bit.val = 0 := hbit
      rw [if_pos hzero]
      exact ⟨htotal, hnum.trans_eq (Nat.mul_one d)⟩
    | succ j =>
      rw [pow_succ, Nat.mul_div_cancel _ two_pos] at hbit
      rw [pow_succ, ← Nat.mul_assoc, Nat.mul_div_cancel _ two_pos] at hden
      rw [pow_succ, ← Nat.mul_assoc, ← hden] at hnum
      rw [if_neg (hbit ▸ (Nat.two_pow_pos j).ne')]
      have hden' : (uint128Rsl den 1).val = d * 2 ^ j / 2 := by rw [val_uint128Rsl_one, hden]
      have hbit' : (uint128Rsl bit 1).val = 2 ^ j / 2 := by rw [val_uint128Rsl_one, hbit]
      split
      · next hless =>
        rw [uint128Lt_eq, decide_eq_true_iff, hden] at hless
        exact ih hden' hbit' hless htotal (Nat.lt_of_succ_lt_succ hfuel)
      · next hless =>
        rw [uint128Lt_eq, decide_eq_true_iff, not_lt] at hless
        have hsub := val_uint128Sub hless
        have hstep : (quo.val + bit.val) * d + (num.val - den.val) = total := by
          rw [Nat.add_mul, hbit, Nat.mul_comm (2 ^ j) d, ← hden]
          omega
        have hadd : (uint128Add quo bit).val = quo.val + bit.val := by
          have hd : 0 < d := Nat.pos_of_ne_zero fun hzero => by
            rw [hzero, Nat.zero_mul] at hden
            omega
          rw [val_uint128Add, Nat.mod_eq_of_lt]
          exact ((Nat.le_mul_of_pos_right _ hd).trans (hstep ▸ Nat.le_add_right _ _)).trans_lt hlt
        refine ih hden' hbit' ?_ ?_ (Nat.lt_of_succ_lt_succ hfuel)
        · show (uint128Sub num den).val < d * 2 ^ j
          omega
        · show (uint128Add quo bit).val * d + (uint128Sub num den).val = total
          rw [hsub, hadd, hstep]

theorem uint128Divrem_spec (num : UInt128) (hden : 0 < den.val) :
    (uint128Divrem num den).1.val * den.val + (uint128Divrem num den).2.val = num.val ∧
      (uint128Divrem num den).2.val < den.val := by
  obtain ⟨j, hj, hbit, hden', hnum⟩ : ∃ j < 128,
      (normalize 128 num (uint64ToUint128 1) den).1.val = 2 ^ j ∧
        (normalize 128 num (uint64ToUint128 1) den).2.val = den.val * 2 ^ j ∧
        num.val < den.val * 2 ^ (j + 1) :=
    normalize_spec num hden (mul_one _).symm (pow_zero 2).symm (by decide) le_rfl
  unfold uint128Divrem
  dsimp only
  generalize normalize 128 num (uint64ToUint128 1) den = p at hbit hden' ⊢
  refine generate_spec (j := j + 1) ?_ ?_ hnum ?_ (val_lt num) (by omega)
  · rw [hden', pow_succ, ← mul_assoc, Nat.mul_div_cancel _ two_pos]
  · rw [hbit, pow_succ, Nat.mul_div_cancel _ two_pos]
  · exact (congrArg (· + _) (Nat.zero_mul _)).trans (zero_add _)

theorem lawful_wide : wide.Lawful where
  val_lt := val_lt
  add := val_uint128Add
  lsl x _ h := val_uint128Lsl x h
  rsl := val_uint128Rsl_one
  quo x y h := by
    obtain ⟨htotal, hlt⟩ := uint128Divrem_spec x h
    change (uint128Divrem x y).1.val = x.val / y.val
    rw [← htotal, add_comm, Nat.add_mul_div_right _ _ (show 0 < y.val from h),
      Nat.div_eq_of_lt hlt, zero_add]
  rem x y h := by
    obtain ⟨htotal, hlt⟩ := uint128Divrem_spec x h
    change (uint128Divrem x y).2.val = x.val % y.val
    rw [← htotal, add_comm, Nat.add_mul_mod_self_right, Nat.mod_eq_of_lt hlt]
  lt := uint128Lt_eq
  isZero x := by
    rw [Bool.eq_iff_iff, decide_eq_true_iff]
    exact beq_iff_eq.trans (eq_zero_iff x)
  lowBit x := by
    have hlow : x.val % 2 = x.lo.toNat % 2 := by unfold UInt128.val; omega
    show x.lo.getLsbD 0 = decide (x.val % 2 = 1)
    rw [hlow, BitVec.getLsbD, Nat.testBit_zero]
  highBit := msb_hi

end Cairo

/-! ## 4. Both divisions -/

/-- The quotient of the magnitudes, truncated to an integer. -/
def quotient (a b : BitVec 128) : Nat := a.toInt.natAbs * 2 ^ digits / b.toInt.natAbs

/-- Both divisions are exact, in at most 64 rounds. -/
theorem udiv_exact (a b : UInt128) (hb : b.bits ≠ 0) (hfits : quotient a.bits b.bits < 2 ^ 128)
    (fuel : Nat) (hfuel : digits < fuel) :
    (∃ r, udiv native fuel (outputSign a.bits b.bits).1 (outputSign a.bits b.bits).2.1 = some r ∧
      r.toNat = quotient a.bits b.bits) ∧
    ∃ r, udiv Cairo.wide fuel (Cairo.outputSign a b).1 (Cairo.outputSign a b).2.1 = some r ∧
      r.val = quotient a.bits b.bits := by
  have hpos : 0 < b.bits.toInt.natAbs := Int.natAbs_pos.mpr fun hzero =>
    hb (BitVec.eq_of_toInt_eq (hzero.trans rfl))
  have hle := natAbs_toInt_le b.bits
  exact ⟨lawful_native.exists_udiv (toNat_magnitude _) (toNat_magnitude _) hpos hle hfits hfuel,
    Cairo.lawful_wide.exists_udiv (Cairo.val_magnitude _) (Cairo.val_magnitude _) hpos hle hfits
      hfuel⟩

/-- `1 / 1.5`. -/
theorem udiv_exact_two_thirds :
    (∃ r, udiv native 65 (outputSign (UInt128.bits ⟨0, 1⟩) (UInt128.bits ⟨0x8000000000000000, 1⟩)).1
        (outputSign (UInt128.bits ⟨0, 1⟩) (UInt128.bits ⟨0x8000000000000000, 1⟩)).2.1 = some r ∧
      r.toNat = 12297829382473034410) ∧
    ∃ r, udiv Cairo.wide 65 (Cairo.outputSign ⟨0, 1⟩ ⟨0x8000000000000000, 1⟩).1
        (Cairo.outputSign ⟨0, 1⟩ ⟨0x8000000000000000, 1⟩).2.1 = some r ∧
      r.val = 12297829382473034410 :=
  have hquotient : quotient (UInt128.bits ⟨0, 1⟩) (UInt128.bits ⟨0x8000000000000000, 1⟩) =
      12297829382473034410 := by decide +kernel
  hquotient ▸ udiv_exact ⟨0, 1⟩ ⟨0x8000000000000000, 1⟩ (by decide) (by rw [hquotient]; decide) 65
    (by decide)

end MoeJit.HighPrec
