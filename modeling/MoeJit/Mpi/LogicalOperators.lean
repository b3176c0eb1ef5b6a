import MoeJit.Mpi.Communicator

/-!
# Logical operators

`MPIOperatorImplementation` of `LOGICAL_AND`, `LOGICAL_OR` and `LOGICAL_XOR`, which accumulate the
values of a range of an integral type, with the conversions of each step.

`logical_iff`: the operators mean what their names say exactly if the number of values other than
zero is odd when, and only when, some bit is set in an odd number of values. `LOGICAL_XOR` is the
bitwise operator (`logicalXor_not_logical`).
-/

namespace MoeJit.Mpi

open BitVec (ofInt setWidth toNat_ofInt)

/-! ## 1. Model -/

/-- The types of `std::is_integral`. -/
inductive IntegralType
  | bool
  | integer (T : IntType)

namespace IntegralType

theorem int_size_pos : 0 < 4 := by decide

/-- `int`. -/
def int : IntType := ⟨4, true, int_size_pos⟩

def width : IntegralType → Nat
  | bool => 1
  | integer T => 8 * T.size

abbrev Val (T : IntegralType) := BitVec T.width

def signed : IntegralType → Bool
  | bool => false
  | integer T => T.signed

def toInt (T : IntegralType) (v : T.Val) : Int := if T.signed then BitVec.toInt v else v.toNat

/-- The conversion of a number to the type. -/
def convert : (T : IntegralType) → Int → T.Val
  | bool, i => BitVec.ofBool (i ≠ 0)
  | integer T, i => BitVec.ofInt (8 * T.size) i

/-- The integral promotion: to `int` from what is smaller. -/
def promoted : IntegralType → IntegralType
  | bool => integer int
  | integer T => if T.size < int.size then integer int else integer T

def promote (T : IntegralType) (v : T.Val) : T.promoted.Val := T.promoted.convert (T.toInt v)

/-- The conversion of a `bool`. -/
def ofBool (T : IntegralType) (b : Bool) : T.Val := T.convert (if b then 1 else 0)

end IntegralType

section

variable {T : IntegralType}

/-- `LOGICAL_AND`. What accumulates has the type of `~T{0}`. -/
def logicalAnd (l : List T.Val) : T.Val :=
  let acc := l.foldl (fun acc x => T.promoted.ofBool (acc ≠ 0 ∧ x ≠ 0)) (~~~T.promote 0)
  T.convert (T.promoted.toInt acc)

/-- `LOGICAL_OR`. -/
def logicalOr (l : List T.Val) : T.Val :=
  l.foldl (fun acc x => T.ofBool (acc ≠ 0 ∨ x ≠ 0)) 0

/-- `LOGICAL_XOR`, with `std::bit_xor`. -/
def logicalXor (l : List T.Val) : T.Val :=
  l.foldl (fun acc x => T.convert (T.promoted.toInt (T.promote acc ^^^ T.promote x))) 0

/-! ## 2. Statement -/

/-- The operators mean what their names say, in any order of the values. -/
structure Logical (l : List T.Val) : Prop where
  and_iff : logicalAnd l ≠ 0 ↔ ∀ x ∈ l, x ≠ 0
  or_iff : logicalOr l ≠ 0 ↔ ∃ x ∈ l, x ≠ 0
  xor_iff : logicalXor l ≠ 0 ↔ Odd (l.countP (· ≠ 0))
  perm : ∀ l', l.Perm l' →
    logicalAnd l' = logicalAnd l ∧ logicalOr l' = logicalOr l ∧ logicalXor l' = logicalXor l

/-! ## 3. Conversions -/

/-- A promotion ends in an integer type that has all bits of the value. -/
theorem promoted_spec (T : IntegralType) :
    ∃ S : IntType, T.promoted = .integer S ∧ T.width ≤ 8 * S.size := by
  cases T with
  | bool => exact ⟨IntegralType.int, rfl, by decide⟩
  | integer T =>
    by_cases h : T.size < IntegralType.int.size
    · exact ⟨IntegralType.int, if_pos h, Nat.mul_le_mul_left 8 h.le⟩
    · exact ⟨T, if_neg h, Nat.le_refl _⟩

theorem toInt_ofBool_integer (S : IntType) (b : Bool) :
    (IntegralType.integer S).toInt ((IntegralType.integer S).ofBool b) = if b then 1 else 0 := by
  have hsize := S.size_pos
  have hwidth : 0 < 8 * S.size := by omega
  have hhalf : (1 : Int) < 2 ^ (8 * S.size - 1) := by
    exact_mod_cast Nat.one_lt_two_pow (by omega : 8 * S.size - 1 ≠ 0)
  have hfull : (1 : Int) < 2 ^ (8 * S.size) := by exact_mod_cast Nat.one_lt_two_pow hwidth.ne'
  have hrange : (0 : Int) ≤ (if b then 1 else 0) ∧ (if b then 1 else 0 : Int) ≤ 1 := by
    cases b <;> decide
  rw [IntegralType.toInt, IntegralType.ofBool]
  generalize (if b then 1 else 0 : Int) = i at hrange
  cases hsigned : (IntegralType.integer S).signed with
  | true =>
    rw [if_pos rfl]
    exact BitVec.toInt_ofInt_eq_self hwidth (by omega) (by omega)
  | false =>
    rw [if_neg Bool.false_ne_true]
    show ((ofInt (8 * S.size) i).toNat : Int) = i
    rw [toNat_ofInt, Int.toNat_of_nonneg
      (Int.emod_nonneg i (by exact_mod_cast (Nat.two_pow_pos _).ne'))]
    push_cast
    exact Int.emod_eq_of_lt hrange.1 (by omega)

theorem ofBool_ne_zero {b : Bool} : T.ofBool b ≠ 0 ↔ b = true := by
  cases T with
  | bool => cases b <;> decide
  | integer S =>
    have htoInt := toInt_ofBool_integer S b
    cases b with
    | false => exact iff_of_false (fun h => h (BitVec.ofInt_natCast (8 * S.size) 0)) Bool.false_ne_true
    | true =>
      refine iff_of_true (fun hzero => ?_) rfl
      rw [hzero, IntegralType.toInt] at htoInt
      simp at htoInt

theorem toInt_promoted_ofBool (b : Bool) :
    T.promoted.toInt (T.promoted.ofBool b) = if b then 1 else 0 := by
  obtain ⟨S, hS, -⟩ := promoted_spec T
  rw [hS]
  exact toInt_ofBool_integer S b

theorem setWidth_ofInt {k n : Nat} (h : k ≤ n) (i : Int) : (ofInt n i).setWidth k = ofInt k i := by
  refine BitVec.eq_of_toNat_eq ?_
  have hdvd : ((2 ^ k : Nat) : Int) ∣ ((2 ^ n : Nat) : Int) :=
    Int.natCast_dvd_natCast.mpr (Nat.pow_dvd_pow 2 h)
  have hmod := Int.emod_emod_of_dvd i hdvd
  have hnonneg := Int.emod_nonneg i (by exact_mod_cast (Nat.two_pow_pos n).ne' : ((2 ^ n : Nat) : Int) ≠ 0)
  rw [BitVec.toNat_setWidth, toNat_ofInt, toNat_ofInt, ← hmod, Int.toNat_emod hnonneg
    (Int.natCast_nonneg _), Int.toNat_natCast]

theorem ofInt_toInt {S : IntType} {k : Nat} (h : k ≤ 8 * S.size) (v : (IntegralType.integer S).Val) :
    ofInt k ((IntegralType.integer S).toInt v) = setWidth k v := by
  rw [IntegralType.toInt]
  split
  · exact BitVec.signExtend_eq_setWidth_of_le v h
  · rw [BitVec.ofInt_natCast, BitVec.ofNat_toNat]

theorem convert_toInt (S : IntType) (v : (IntegralType.integer S).Val) :
    (IntegralType.integer S).convert ((IntegralType.integer S).toInt v) = v :=
  (ofInt_toInt (Nat.le_refl _) v).trans (BitVec.setWidth_eq v)

theorem convert_xor (a x : T.Val) :
    T.convert (T.promoted.toInt (T.promote a ^^^ T.promote x)) = a ^^^ x := by
  cases T with
  | bool =>
    revert a x
    decide
  | integer S' =>
    -- both operands are extended with the same bits or cut off again
    obtain ⟨S, hS, hwidth⟩ := promoted_spec (.integer S')
    rw [IntegralType.promote, IntegralType.promote, hS]
    have hle : 8 * S'.size ≤ 8 * S.size := hwidth
    refine (ofInt_toInt hle _).trans ?_
    show setWidth (8 * S'.size) (ofInt (8 * S.size) _ ^^^ ofInt (8 * S.size) _) = _
    rw [BitVec.setWidth_xor, setWidth_ofInt hle, setWidth_ofInt hle]
    exact congrArg₂ (fun b y => b ^^^ y) (convert_toInt S' a) (convert_toInt S' x)

/-! ## 4. What the operators return -/

theorem promote_zero : T.promote 0 = 0 := by
  have hzero : T.toInt 0 = 0 := by simp [IntegralType.toInt]
  have hfalse : ¬T.promoted.ofBool false ≠ 0 := fun h => Bool.false_ne_true (ofBool_ne_zero.mp h)
  rw [IntegralType.promote, hzero]
  exact not_not.mp hfalse

theorem not_promote_zero_ne_zero : ~~~T.promote 0 ≠ 0 := by
  obtain ⟨S, hS, -⟩ := promoted_spec T
  have hpos : 0 < T.promoted.width := by
    rw [hS]
    exact Nat.mul_pos (by decide) S.size_pos
  intro h
  have hbit := congrArg (BitVec.getLsbD · 0) h
  rw [promote_zero] at hbit
  simp [hpos] at hbit

theorem logicalAnd_eq {l : List T.Val} (h : l ≠ []) : logicalAnd l = T.ofBool (∀ x ∈ l, x ≠ 0) := by
  -- the last step leaves a converted `bool`
  have hfold : ∀ (l : List T.Val) (acc : T.promoted.Val), l ≠ [] →
      l.foldl (fun acc x => T.promoted.ofBool (acc ≠ 0 ∧ x ≠ 0)) acc =
        T.promoted.ofBool (acc ≠ 0 ∧ ∀ x ∈ l, x ≠ 0) := by
    intro l
    induction l with
    | nil => exact fun _ h => absurd rfl h
    | cons x l ih =>
      intro acc _
      rw [List.foldl_cons]
      by_cases hl : l = []
      · subst hl
        simp
      · rw [ih _ hl]
        simp only [ofBool_ne_zero, decide_eq_true_eq, List.forall_mem_cons, and_assoc]
  have hall : (~~~T.promote 0 ≠ 0 ∧ ∀ x ∈ l, x ≠ 0) ↔ ∀ x ∈ l, x ≠ 0 :=
    and_iff_right not_promote_zero_ne_zero
  rw [logicalAnd, hfold l _ h, toInt_promoted_ofBool, decide_eq_decide.mpr hall]
  rfl

theorem logicalOr_eq {l : List T.Val} (h : l ≠ []) : logicalOr l = T.ofBool (∃ x ∈ l, x ≠ 0) := by
  have hfold : ∀ (l : List T.Val) (acc : T.Val), l ≠ [] →
      l.foldl (fun acc x => T.ofBool (acc ≠ 0 ∨ x ≠ 0)) acc =
        T.ofBool (acc ≠ 0 ∨ ∃ x ∈ l, x ≠ 0) := by
    intro l
    induction l with
    | nil => exact fun _ h => absurd rfl h
    | cons x l ih =>
      intro acc _
      rw [List.foldl_cons]
      -- a single value goes straight into the result, of more the first is already a `bool`
      by_cases hl : l = []
      · subst hl
        simp
      · rw [ih _ hl]
        simp only [ofBool_ne_zero, decide_eq_true_eq, List.exists_mem_cons_iff, or_assoc]
  rw [logicalOr, hfold l 0 h]
  simp

theorem logicalXor_eq (l : List T.Val) : logicalXor l = l.foldl (fun acc x => acc ^^^ x) 0 := by
  simp only [logicalXor, convert_xor]

theorem getLsbD_foldl_xor (l : List T.Val) (acc : T.Val) (i : Nat) :
    (l.foldl (fun acc x => acc ^^^ x) acc).getLsbD i =
      (acc.getLsbD i ^^ decide (Odd (l.countP fun x => x.getLsbD i))) := by
  induction l generalizing acc with
  | nil => simp
  | cons x l ih =>
    rw [List.foldl_cons, ih, BitVec.getLsbD_xor, List.countP_cons]
    cases x.getLsbD i with
    | false => simp
    | true =>
      rw [if_pos rfl, Bool.xor_true]
      simp only [Nat.odd_add_one, decide_not, Bool.not_xor, Bool.xor_not]

/-- A bit of the result is set if it is in an odd number of values. -/
theorem logicalXor_ne_zero (l : List T.Val) :
    logicalXor l ≠ 0 ↔ ∃ i, Odd (l.countP fun x => x.getLsbD i) := by
  rw [logicalXor_eq]
  -- the result is zero if no bit has odd parity
  have hbit := fun i => getLsbD_foldl_xor l 0 i
  constructor
  · intro hne
    by_contra hno
    push Not at hno
    refine hne (BitVec.eq_of_getLsbD_eq fun i _ => ?_)
    rw [hbit i]
    simp [hno i]
  · rintro ⟨i, hi⟩ hzero
    have hodd := hbit i
    rw [hzero] at hodd
    simp [hi] at hodd

/-- The operators mean what their names say if and only if an odd number of values other than zero
is the same as a bit that an odd number of values has. -/
theorem logical_iff (l : List T.Val) (h : l ≠ []) : Logical l ↔
    (Odd (l.countP (· ≠ 0)) ↔ ∃ i, Odd (l.countP fun x => x.getLsbD i)) := by
  rw [← logicalXor_ne_zero]
  constructor
  · intro hlogical
    exact hlogical.xor_iff.symm
  · intro hxor
    refine ⟨?_, ?_, hxor.symm, fun l' hl' => ⟨?_, ?_, ?_⟩⟩
    · rw [logicalAnd_eq h, ofBool_ne_zero, decide_eq_true_eq]
    · rw [logicalOr_eq h, ofBool_ne_zero, decide_eq_true_eq]
    · rw [logicalAnd_eq h, logicalAnd_eq fun hnil => h (hnil ▸ hl').eq_nil]
      simp only [hl'.mem_iff]
    · rw [logicalOr_eq h, logicalOr_eq fun hnil => h (hnil ▸ hl').eq_nil]
      simp only [hl'.mem_iff]
    · rw [logicalXor_eq, logicalXor_eq]
      exact (hl'.foldl_eq' (fun x _ y _ z => by
        rw [BitVec.xor_assoc, BitVec.xor_comm x, ← BitVec.xor_assoc]) 0).symm

/-- Three values with a bit that all of them have. -/
theorem logical_iff_three :
    Logical (T := .integer IntegralType.int) [1, 3, 5] := by
  refine (logical_iff (T := .integer IntegralType.int) [1, 3, 5] (by simp)).mpr
    (iff_of_true (by decide) ⟨0, by decide⟩)

/-- Two values other than zero that are not the same. -/
theorem logicalXor_not_logical : ¬Logical (T := .integer IntegralType.int) [1, 2] := by
  intro h
  have hodd := h.xor_iff.mp (by decide)
  revert hodd
  decide

end

end MoeJit.Mpi
