import MoeJit.Lib.Circle

/-!
# Sequence numbers of ten bits

Every number carries a modulus base, and is compared by its distance from it. The distance is a
remainder of C, cut to 16 bits: behind the base it is a large number, so that the order is the one
on the circle (`gt_place`).
-/

namespace MoeJit.Lte

/-- Conversion to `uint16_t`. -/
def toUint16 (x : Int) : Nat := (x % 65536).toNat

structure SequenceNumber10 where
  value : Nat
  modulusBase : Nat
  value_lt : value < 1024
  deriving DecidableEq

namespace SequenceNumber10

/-- The constructor. -/
def ofValue (value : Nat) : SequenceNumber10 := ⟨value % 1024, 0, Nat.mod_lt _ (by decide)⟩

def setModulusBase (sn base : SequenceNumber10) : SequenceNumber10 :=
  { sn with modulusBase := base.value }

/-- `operator++`. -/
def succ (sn : SequenceNumber10) : SequenceNumber10 where
  value := (sn.value + 1) % 1024
  modulusBase := sn.modulusBase
  value_lt := Nat.mod_lt _ (by decide)

def add (sn : SequenceNumber10) (delta : Nat) : SequenceNumber10 where
  value := (sn.value + delta) % 1024
  modulusBase := sn.modulusBase
  value_lt := Nat.mod_lt _ (by decide)

def sub (sn : SequenceNumber10) (delta : Nat) : SequenceNumber10 where
  value := toUint16 (((sn.value : Int) - delta).tmod 1024) % 1024
  modulusBase := sn.modulusBase
  value_lt := Nat.mod_lt _ (by decide)

/-- How far the number is from its base. -/
def offset (sn : SequenceNumber10) : Nat :=
  toUint16 (((sn.value : Int) - sn.modulusBase).tmod 1024)

def gt (a b : SequenceNumber10) : Bool := b.offset < a.offset

def le (a b : SequenceNumber10) : Bool := !a.gt b

def ge (a b : SequenceNumber10) : Bool := a.gt b || a.value = b.value

def lt (a b : SequenceNumber10) : Bool := !a.gt b && a.value ≠ b.value

/-- The number at a place on the line, with its base at another. -/
def place (base x : Nat) : SequenceNumber10 :=
  ⟨x % 1024, base % 1024, Nat.mod_lt _ (by decide)⟩

section Place

variable {base x y : Nat}

@[simp] theorem value_place : (place base x).value = x % 1024 := rfl

@[simp] theorem succ_place : (place base x).succ = place base (x + 1) := by
  simp only [succ, place, Nat.mod_add_mod]

@[simp] theorem add_place (delta : Nat) : (place base x).add delta = place base (x + delta) := by
  simp only [add, place, Nat.mod_add_mod]

@[simp] theorem setModulusBase_place {base' : Nat} :
    (place base x).setModulusBase (place base' y) = place y x := rfl

/-- In the turn from the base on, the offset tells how far the number is. -/
theorem offset_place (hle : base ≤ x) (hlt : x < base + 1024) :
    (place base x).offset = if base % 1024 + (x - base) < 1024 then x - base
      else 64512 + (x - base) := by
  unfold offset place toUint16
  dsimp only
  have hmod : x % 1024 = (base % 1024 + (x - base)) % 1024 := by omega
  have hbase : base % 1024 < 1024 := Nat.mod_lt _ (by decide)
  have hsmall : -1024 < ((x % 1024 : Nat) : Int) - ((base % 1024 : Nat) : Int) ∧
      ((x % 1024 : Nat) : Int) - ((base % 1024 : Nat) : Int) < 1024 := by omega
  have htmod : (((x % 1024 : Nat) : Int) - ((base % 1024 : Nat) : Int)).tmod 1024 =
      ((x % 1024 : Nat) : Int) - ((base % 1024 : Nat) : Int) := by
    rcases Int.le_total 0 (((x % 1024 : Nat) : Int) - ((base % 1024 : Nat) : Int)) with h | h
    · exact Int.tmod_eq_of_lt h hsmall.2
    · rw [← Int.neg_neg (((x % 1024 : Nat) : Int) - ((base % 1024 : Nat) : Int)), Int.neg_tmod,
        Int.tmod_eq_of_lt (by omega) (by omega)]
  rw [htmod]
  split <;> omega

section

variable (hx : base ≤ x) (hx' : x < base + 1024) (hy : base ≤ y) (hy' : y < base + 1024)
include hx hx' hy hy'

theorem gt_place : (place base x).gt (place base y) = decide (y < x) := by
  unfold gt
  rw [offset_place hx hx', offset_place hy hy', decide_eq_decide]
  split <;> split <;> omega

theorem lt_place : (place base x).lt (place base y) = decide (x < y) := by
  unfold lt
  have hval : x % 1024 = y % 1024 ↔ x = y := by omega
  rw [gt_place hx hx' hy hy', value_place, value_place, ← decide_not, ← Bool.decide_and,
    decide_eq_decide, ne_eq, hval]
  omega

theorem le_place : (place base x).le (place base y) = decide (x ≤ y) := by
  unfold le
  rw [gt_place hx hx' hy hy', ← decide_not, decide_eq_decide, Nat.not_lt]

end

end Place

end SequenceNumber10

end MoeJit.Lte
