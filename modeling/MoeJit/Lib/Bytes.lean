import Mathlib.Data.BitVec
import Mathlib.Tactic.Ring

/-!
# Bytes of fixed-width words

The object representation of a fixed-width integer, as a sequence of bytes with
the least significant first. A word of `8 * k` bits has `k` bytes, and is read
back from them (`ofBytes_toBytes`).
-/

namespace Bytes

abbrev Byte := BitVec 8

/-- The `k` low bytes of a number. -/
def natBytes : Nat → Nat → List Byte
  | 0, _ => []
  | k + 1, n => BitVec.ofNat 8 n :: natBytes k (n / 256)

/-- The number with the given bytes. -/
def natOfBytes (l : List Byte) : Nat := l.foldr (fun b n => b.toNat + 256 * n) 0

theorem length_natBytes (k n : Nat) : (natBytes k n).length = k := by
  induction k generalizing n with
  | zero => rfl
  | succ k ih => rw [natBytes, List.length_cons, ih]

theorem natOfBytes_natBytes {k n : Nat} (h : n < 2 ^ (8 * k)) : natOfBytes (natBytes k n) = n := by
  induction k generalizing n with
  | zero =>
    have : n = 0 := by simpa using h
    rw [this]
    rfl
  | succ k ih =>
    have hdiv : n / 256 < 2 ^ (8 * k) := by
      rw [Nat.div_lt_iff_lt_mul (by decide)]
      calc n < 2 ^ (8 * (k + 1)) := h
        _ = 2 ^ (8 * k) * 256 := by ring
    calc natOfBytes (natBytes (k + 1) n)
        = (BitVec.ofNat 8 n).toNat + 256 * natOfBytes (natBytes k (n / 256)) := rfl
      _ = n % 256 + 256 * (n / 256) := by rw [ih hdiv, BitVec.toNat_ofNat]
      _ = n := Nat.mod_add_div n 256

variable {k : Nat}

/-- The bytes of a word. -/
def toBytes (x : BitVec (8 * k)) : List Byte := natBytes k x.toNat

/-- The word with the given bytes. -/
def ofBytes (k : Nat) (l : List Byte) : BitVec (8 * k) := BitVec.ofNat (8 * k) (natOfBytes l)

@[simp] theorem length_toBytes (x : BitVec (8 * k)) : (toBytes x).length = k :=
  length_natBytes k x.toNat

@[simp] theorem ofBytes_toBytes (x : BitVec (8 * k)) : ofBytes k (toBytes x) = x := by
  rw [ofBytes, toBytes, natOfBytes_natBytes x.isLt, BitVec.ofNat_toNat, BitVec.setWidth_eq]

end Bytes
