import MoeJit.Lib.Bytes
import MoeJit.Lib.StdMaxElement
import Mathlib.Data.Fintype.List

/-!
# Communicator groups and operators

The members of an `MPICommunicator`, the fixed-width integers it transfers and
the operators of `mpi-protocol.h` that combine them. A communicator has a socket
for every member of its group, itself included, in an `unordered_map`; a loop
over the map meets the members in some order, which is a parameter wherever the
source loops over it.
-/

namespace MoeJit.Mpi

open Bytes StdMaxElement

/-! ## Groups -/

/-- `MPIRankIDType`, 64 bits. -/
abbrev MPIRankID := Nat

/-- The ranks of a communicator, as its constructor leaves them: sorted. -/
structure Group where
  ranks : List MPIRankID
  sorted : ranks.Pairwise (· < ·)
  nonempty : ranks ≠ []

namespace Group

variable (G : Group)

abbrev Member := { r : MPIRankID // r ∈ G.ranks }

/-- `GroupSize()`. -/
def size : Nat := G.ranks.length

def members : List G.Member := G.ranks.attach

/-- An order in which a loop over the sockets meets the members. -/
abbrev Order := { l : List G.Member // l.Perm G.members }

variable {G}

theorem size_pos : 0 < G.size := List.length_pos_iff.mpr G.nonempty

theorem mem_members (r : G.Member) : r ∈ G.members := List.mem_attach _ r

end Group

/-! ## Operators -/

/-- An integral type: its size in bytes and whether it is signed. -/
structure IntType where
  size : Nat
  signed : Bool
  size_pos : 0 < size

abbrev IntType.Val (T : IntType) := BitVec (8 * T.size)

/-- `std::ranges::less` on an integral type. -/
def IntType.Less (T : IntType) (a b : T.Val) : Prop :=
  if T.signed then a.toInt < b.toInt else a.toNat < b.toNat

instance (T : IntType) : DecidableRel T.Less := fun a b =>
  inferInstanceAs (Decidable (if T.signed then a.toInt < b.toInt else a.toNat < b.toNat))

/-- The arithmetic, order and bitwise members of `MPIOperator`. -/
inductive MPIOperator
  | sum
  | product
  | max
  | min
  | bitwiseAnd
  | bitwiseOr
  | bitwiseXor

/-- `MPIOperatorImplementation`, on the values in the order of a range. The
operators that accumulate start from their unit, the others from the first
value. -/
def implementation (T : IntType) : MPIOperator → List T.Val → Option T.Val
  | .sum, l => some (l.foldl (fun acc x => acc + x) 0)
  | .product, l => some (l.foldl (fun acc x => acc * x) 1)
  | .max, l => maxElement T.Less l
  | .min, l => maxElement (fun a b => T.Less b a) l
  | .bitwiseAnd, l => some (l.foldl (fun acc x => acc &&& x) (~~~0))
  | .bitwiseOr, l => some (l.foldl (fun acc x => acc ||| x) 0)
  | .bitwiseXor, l => some (l.foldl (fun acc x => acc ^^^ x) 0)

theorem isStrictTotal_less (T : IntType) : IsStrictTotal T.Less where
  irrefl a := by
    unfold IntType.Less
    split <;> exact lt_irrefl _
  trans a b c := by
    unfold IntType.Less
    split <;> exact lt_trans
  total a b := by
    unfold IntType.Less
    split
    · intro h₁ h₂
      exact BitVec.eq_of_toInt_eq (le_antisymm (not_lt.mp h₂) (not_lt.mp h₁))
    · intro h₁ h₂
      exact BitVec.eq_of_toNat_eq (le_antisymm (not_lt.mp h₂) (not_lt.mp h₁))

/-- The value of an operator does not depend on the order of its operands. -/
theorem implementation_perm (T : IntType) (op : MPIOperator) {l l' : List T.Val}
    (h : l.Perm l') : implementation T op l = implementation T op l' := by
  cases op with
  | sum => exact congrArg some (h.foldl_eq' (fun x _ y _ z => by
      rw [BitVec.add_assoc, BitVec.add_comm x, ← BitVec.add_assoc]) 0)
  | product => exact congrArg some (h.foldl_eq' (fun x _ y _ z => by
      rw [BitVec.mul_assoc, BitVec.mul_comm x, ← BitVec.mul_assoc]) 1)
  | max => exact maxElement_perm (isStrictTotal_less T) h
  | min => exact maxElement_perm (isStrictTotal_less T).flip h
  | bitwiseAnd => exact congrArg some (h.foldl_eq' (fun x _ y _ z => by
      rw [BitVec.and_assoc, BitVec.and_comm x, ← BitVec.and_assoc]) _)
  | bitwiseOr => exact congrArg some (h.foldl_eq' (fun x _ y _ z => by
      rw [BitVec.or_assoc, BitVec.or_comm x, ← BitVec.or_assoc]) 0)
  | bitwiseXor => exact congrArg some (h.foldl_eq' (fun x _ y _ z => by
      rw [BitVec.xor_assoc, BitVec.xor_comm x, ← BitVec.xor_assoc]) 0)

theorem implementation_isSome (T : IntType) (op : MPIOperator) {l : List T.Val} (h : l ≠ []) :
    (implementation T op l).isSome := by
  cases op with
  | max | min => exact maxElement_isSome h
  | _ => rfl

end MoeJit.Mpi
