import Mathlib.Data.List.Basic

/-!
# Square grids with checked accesses

A grid is a list of rows, as a vector of vectors. An access is by integers and fails outside of the
grid. Inside of a square grid no access fails, and a cell that is written changes alone
(`write_ok`).
-/

namespace Grid

open List
open Option (bind_some map_some)

/-- What an access outside of a vector is. -/
inductive Failure
  | outOfRange
  deriving DecidableEq, Repr

variable {α : Type}

def cell (m : List (List α)) (i j : Nat) : Option α := m[i]?.bind (·[j]?)

/-- `m[i][j]`. -/
def read (m : List (List α)) (i j : Int) : Except Failure α :=
  if 0 ≤ i ∧ 0 ≤ j then
    match cell m i.toNat j.toNat with
    | some a => .ok a
    | none => .error .outOfRange
  else .error .outOfRange

/-- `m[i][j] = a`. -/
def write (m : List (List α)) (i j : Int) (a : α) : Except Failure (List (List α)) :=
  if 0 ≤ i ∧ 0 ≤ j then
    match m[i.toNat]? with
    | some row =>
      if j.toNat < row.length then .ok (m.set i.toNat (row.set j.toNat a)) else .error .outOfRange
    | none => .error .outOfRange
  else .error .outOfRange

/-- All cells the same. -/
def fill (n : Nat) (a : α) : List (List α) := List.replicate n (List.replicate n a)

/-- The cells from a function. -/
def build (n : Nat) (f : Nat → Nat → α) : List (List α) :=
  (List.range n).map fun i => (List.range n).map (f i)

structure Square (n : Nat) (m : List (List α)) : Prop where
  rows : m.length = n
  columns : ∀ row ∈ m, row.length = n

variable {n : Nat} {m : List (List α)} {i j : Nat} {a : α}

theorem square_fill (n : Nat) (a : α) : Square n (fill n a) where
  rows := length_replicate
  columns row hrow := by
    rw [(mem_replicate.mp hrow).2, length_replicate]

theorem cell_fill (hi : i < n) (hj : j < n) : cell (fill n a) i j = some a := by
  rw [cell, fill, getElem?_replicate_of_lt hi, bind_some, getElem?_replicate_of_lt hj]

theorem square_build (n : Nat) (f : Nat → Nat → α) : Square n (build n f) where
  rows := by rw [build, length_map, length_range]
  columns row hrow := by
    obtain ⟨i, -, rfl⟩ := mem_map.mp hrow
    rw [length_map, length_range]

theorem cell_build {f : Nat → Nat → α} (hi : i < n) (hj : j < n) :
    cell (build n f) i j = some (f i j) := by
  rw [cell, build, getElem?_map, getElem?_range hi, map_some, bind_some,
    getElem?_map, getElem?_range hj, map_some]

theorem Square.row (h : Square n m) (hi : i < n) : ∃ row, m[i]? = some row ∧ row.length = n := by
  have hlt : i < m.length := h.rows.symm ▸ hi
  exact ⟨m[i], getElem?_eq_getElem hlt, h.columns _ (getElem_mem hlt)⟩

theorem read_natCast : read m i j = (cell m i j).elim (.error .outOfRange) .ok := by
  rw [read, if_pos ⟨Int.natCast_nonneg i, Int.natCast_nonneg j⟩, Int.toNat_natCast, Int.toNat_natCast]
  cases cell m i j with
  | none => rfl
  | some a => rfl

theorem read_ok (h : Square n m) (hi : i < n) (hj : j < n) : ∃ a, read m i j = .ok a ∧
    cell m i j = some a := by
  obtain ⟨row, hrow, hlen⟩ := h.row hi
  have hlt : j < row.length := hlen.symm ▸ hj
  have hcell : cell m i j = some row[j] := by
    rw [cell, hrow, bind_some, getElem?_eq_getElem hlt]
  exact ⟨row[j], by rw [read_natCast, hcell]; rfl, hcell⟩

theorem write_ok (h : Square n m) (hi : i < n) (hj : j < n) (a : α) : ∃ m', write m i j a = .ok m' ∧
    Square n m' ∧ ∀ i' j', cell m' i' j' = if i' = i ∧ j' = j then some a else cell m i' j' := by
  obtain ⟨row, hrow, hlen⟩ := h.row hi
  have hlt : j < row.length := hlen.symm ▸ hj
  refine ⟨m.set i (row.set j a), ?_, ⟨?_, fun row' hrow' => ?_⟩, fun i' j' => ?_⟩
  · rw [write, if_pos ⟨Int.natCast_nonneg i, Int.natCast_nonneg j⟩, Int.toNat_natCast,
      Int.toNat_natCast, hrow]
    exact if_pos hlt
  · rw [length_set, h.rows]
  · rcases mem_or_eq_of_mem_set hrow' with hold | rfl
    · exact h.columns row' hold
    · rw [length_set, hlen]
  · have hi' : i < m.length := h.rows.symm ▸ hi
    rw [cell, cell, getElem?_set]
    by_cases heq : i = i'
    · subst heq
      rw [if_pos rfl, if_pos hi', bind_some, getElem?_set, hrow, bind_some]
      by_cases hjj : j = j'
      · subst hjj
        rw [if_pos rfl, if_pos hlt, if_pos ⟨rfl, rfl⟩]
      · rw [if_neg hjj, if_neg fun hand => hjj hand.2.symm]
    · rw [if_neg heq, if_neg fun hand => heq hand.1.symm]

theorem write_negative {i j : Int} (h : i < 0 ∨ j < 0) (m : List (List α)) (a : α) :
    write m i j a = .error .outOfRange := if_neg (by omega)

theorem read_negative {i j : Int} (h : i < 0 ∨ j < 0) (m : List (List α)) :
    read m i j = .error .outOfRange := if_neg (by omega)

end Grid
