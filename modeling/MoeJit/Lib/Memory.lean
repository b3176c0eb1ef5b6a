import Mathlib.Data.List.GetD
import MoeJit.Lib.ByteReader

/-!
# Memory

A byte at every address. `read` is what is in a range of addresses, `write` puts bytes from an
address on, and `writeAll` puts one chunk after another.

Chunks that lie one after the other (`layout`) are read back as a whole (`read_layout`), and change
nothing else (`read_layout_of_disjoint`).
-/

namespace ByteMemory

open Bytes ByteReader List

abbrev Memory := Nat → Byte

def read (m : Memory) (i n : Nat) : List Byte := (List.range n).map fun k => m (i + k)

def write (m : Memory) (i : Nat) (w : List Byte) : Memory := fun a =>
  if i ≤ a then w.getD (a - i) (m a) else m a

/-- The word of `k` bytes, with the most significant one first. -/
def word (k : Nat) (m : Memory) (i : Nat) : BitVec (8 * k) := ofBytes k (read m i k).reverse

/-- Bytes, and where they are written. -/
abbrev Chunk := Nat × List Byte

def writeAll (m : Memory) (chunks : List Chunk) : Memory :=
  chunks.foldl (fun m c => write m c.1 c.2) m

/-- One of the chunks is written to the address. -/
def Written (chunks : List Chunk) (a : Nat) : Prop :=
  ∃ c ∈ chunks, c.1 ≤ a ∧ a < c.1 + c.2.length

@[simp] theorem length_read (m : Memory) (i n : Nat) : (read m i n).length = n := by
  rw [read, length_map, length_range]

theorem read_succ (m : Memory) (i n : Nat) : read m i (n + 1) = m i :: read m (i + 1) n := by
  rw [read, range_succ_eq_map, map_cons, map_map]
  refine congrArg (m i :: ·) (map_congr_left fun k _ => ?_)
  exact congrArg m (Nat.succ_add_eq_add_succ i k).symm

theorem read_add (m : Memory) (i n k : Nat) :
    read m i (n + k) = read m i n ++ read m (i + n) k := by
  rw [read, range_add, map_append, map_map]
  exact congrArg (read m i n ++ ·) (map_congr_left fun j _ => congrArg m (add_assoc i n j).symm)

variable {m : Memory} {i a : Nat} {w : List Byte}

theorem read_congr {m' : Memory} {n : Nat} (h : ∀ a, i ≤ a → a < i + n → m a = m' a) :
    read m i n = read m' i n :=
  map_congr_left fun k hk =>
    h (i + k) (Nat.le_add_right i k) (Nat.add_lt_add_left (mem_range.mp hk) i)

theorem write_of_lt (m : Memory) (w : List Byte) (h : a < i) : write m i w a = m a :=
  if_neg (not_le.mpr h)

theorem write_of_ge (m : Memory) (h : i + w.length ≤ a) : write m i w a = m a := by
  unfold write
  split
  · exact getD_eq_default _ _ (Nat.le_sub_of_add_le' h)
  · rfl

theorem read_write_of_disjoint (m : Memory) {j n : Nat} (h : i + n ≤ j ∨ j + w.length ≤ i) :
    read (write m j w) i n = read m i n := by
  refine read_congr fun a hle hlt => ?_
  rcases h with h | h
  · exact write_of_lt m w (hlt.trans_le h)
  · exact write_of_ge m (h.trans hle)

theorem read_write (m : Memory) (i : Nat) (w : List Byte) : read (write m i w) i w.length = w := by
  refine ext_getElem (length_read _ _ _) fun k hk hw => ?_
  simp only [read, getElem_map, getElem_range, write, if_pos (Nat.le_add_right i k),
    Nat.add_sub_cancel_left]
  exact getD_eq_getElem _ _ hw

theorem word_of_read {k : Nat} {x : BitVec (8 * k)} (h : read m i k = put x) : word k m i = x := by
  rw [word, h, put, reverse_reverse, ofBytes_toBytes]

/-! ## 1. What follows what -/

/-- What is read from a range has its first part in front. -/
theorem read_of_append {v : List Byte} (h : read m i (v ++ w).length = v ++ w) :
    read m i v.length = v ∧ read m (i + v.length) w.length = w := by
  rw [length_append, read_add] at h
  exact append_inj h (length_read m i v.length)

theorem byte_of_read_cons {b : Byte} (h : read m i (b :: w).length = b :: w) :
    m i = b ∧ read m (i + 1) w.length = w := by
  rw [length_cons, read_succ] at h
  exact ⟨head_eq_of_cons_eq h, tail_eq_of_cons_eq h⟩

/-- The chunks one after the other. -/
def layout : Nat → List (List Byte) → List Chunk
  | _, [] => []
  | i, w :: ws => (i, w) :: layout (i + w.length) ws

theorem writeAll_layout_of_lt (m : Memory) (ws : List (List Byte)) (h : a < i) :
    writeAll m (layout i ws) a = m a := by
  induction ws generalizing m i with
  | nil => rfl
  | cons w ws ih =>
    show writeAll (write m i w) (layout (i + w.length) ws) a = m a
    rw [ih (write m i w) (Nat.lt_add_right _ h), write_of_lt m w h]

theorem read_layout (m : Memory) (i : Nat) (ws : List (List Byte)) :
    read (writeAll m (layout i ws)) i ws.flatten.length = ws.flatten := by
  induction ws generalizing m i with
  | nil => rfl
  | cons w ws ih =>
    show read (writeAll (write m i w) (layout (i + w.length) ws)) i _ = _
    rw [flatten_cons, length_append, read_add, ih]
    refine congrArg (· ++ ws.flatten) (Eq.trans (read_congr fun a _ hlt => ?_) (read_write m i w))
    exact writeAll_layout_of_lt _ ws hlt

theorem written_layout {ws : List (List Byte)} :
    Written (layout i ws) a ↔ i ≤ a ∧ a < i + ws.flatten.length := by
  induction ws generalizing i with
  | nil =>
    refine iff_of_false ?_ (fun h => absurd h.2 (not_lt.mpr h.1))
    rintro ⟨c, hc, -⟩
    exact absurd hc not_mem_nil
  | cons w ws ih =>
    have hcons : Written (layout i (w :: ws)) a ↔
        (i ≤ a ∧ a < i + w.length) ∨ Written (layout (i + w.length) ws) a :=
      exists_mem_cons_iff _ _ _
    rw [hcons, ih, flatten_cons, length_append]
    omega

end ByteMemory
