import Mathlib.Data.List.Rotate
import MoeJit.Lib.Circle

/-!
# Bits that slide

A list of bits that is moved along: `slide count` drops bits in front, and appends as many that are
not set. `isOn` is a bit, and is not set outside of the list.

The list may be kept in a ring, as `List.rotate` has it: the ring is left where it is, the bit at
its head is cleared and the head is moved on (`rotate_set_head`).
-/

namespace SlidingBits

open List

def isOn (bits : List Bool) (i : Nat) : Prop := bits[i]? = some true

instance (bits : List Bool) (i : Nat) : Decidable (isOn bits i) :=
  inferInstanceAs (Decidable (bits[i]? = some true))

def slide (count : Nat) (bits : List Bool) : List Bool :=
  bits.drop count ++ List.replicate (min count bits.length) false

section Slide

variable {bits : List Bool} {count i j : Nat}

@[simp] theorem length_slide : (slide count bits).length = bits.length := by
  rw [slide, length_append, length_drop, length_replicate]
  omega

@[simp] theorem slide_zero : slide 0 bits = bits := by
  rw [slide, Nat.zero_min, replicate_zero, append_nil, drop_zero]

theorem slide_of_length_le (h : bits.length ≤ count) :
    slide count bits = List.replicate bits.length false := by
  rw [slide, drop_of_length_le h, min_eq_right h, nil_append]

theorem isOn_slide : isOn (slide count bits) i ↔ isOn bits (count + i) := by
  unfold isOn slide
  by_cases hin : i < (bits.drop count).length
  · rw [getElem?_append_left hin, getElem?_drop]
  · have hout : bits[count + i]? = none := by
      rw [length_drop] at hin
      exact getElem?_eq_none (by omega)
    rw [getElem?_append_right (Nat.le_of_not_lt hin), hout, getElem?_replicate]
    split
    · exact ⟨fun h => absurd (Option.some.inj h) Bool.false_ne_true, fun h => nomatch h⟩
    · exact Iff.rfl

theorem not_isOn_replicate (n : Nat) : ¬isOn (List.replicate n false) i := by
  unfold isOn
  rw [getElem?_replicate]
  split
  · exact fun h => Bool.false_ne_true (Option.some.inj h)
  · exact fun h => nomatch h

theorem isOn_set (h : j < bits.length) : isOn (bits.set j true) i ↔ i = j ∨ isOn bits i := by
  unfold isOn
  rw [getElem?_set]
  by_cases heq : j = i
  · subst heq
    rw [if_pos rfl, if_pos h]
    exact iff_of_true rfl (.inl rfl)
  · rw [if_neg heq, or_iff_right fun h => heq h.symm]

theorem eq_of_isOn {bits' : List Bool} (hlen : bits.length = bits'.length)
    (h : ∀ i, isOn bits i ↔ isOn bits' i) : bits = bits' := by
  refine ext_getElem hlen fun i hi hi' => ?_
  have hon := h i
  unfold isOn at hon
  rw [getElem?_eq_getElem hi, getElem?_eq_getElem hi', Option.some_inj, Option.some_inj] at hon
  exact Bool.eq_iff_iff.mpr hon

theorem slide_slide : slide i (slide count bits) = slide (count + i) bits := by
  refine eq_of_isOn (by rw [length_slide, length_slide, length_slide]) fun j => ?_
  rw [isOn_slide, isOn_slide, isOn_slide, add_assoc]

end Slide

/-! ## The ring -/

section Ring

variable {ring : List Bool} {head i count : Nat}

theorem rotate_set (hi : i < ring.length) (b : Bool) :
    (ring.set ((head + i) % ring.length) b).rotate head = (ring.rotate head).set i b := by
  have hpos : 0 < ring.length := Nat.zero_lt_of_lt hi
  refine ext_getElem? fun m => ?_
  by_cases hm : m < ring.length
  · rw [getElem?_rotate (by rwa [length_set]), length_set, getElem?_set,
      getElem?_set, getElem?_rotate hm, length_rotate]
    by_cases heq : i = m
    · subst heq
      rw [if_pos (by rw [add_comm]), if_pos (Nat.mod_lt _ hpos), if_pos rfl, if_pos hi]
    · have hne : (head + i) % ring.length ≠ (m + head) % ring.length := by
        rw [add_comm m]
        exact fun hmod => heq ((Circle.add_mod_inj hi hm head).mp hmod)
      rw [if_neg hne, if_neg heq]
  · rw [getElem?_eq_none (by rw [length_rotate, length_set]; omega),
      getElem?_eq_none (by rw [length_set, length_rotate]; omega)]

/-- The bit at the head is cleared, and the head moved on. -/
theorem rotate_set_head (hhead : head < ring.length) :
    (ring.set head false).rotate ((head + 1) % ring.length) = slide 1 (ring.rotate head) := by
  have hpos : 0 < ring.length := Nat.zero_lt_of_lt hhead
  have hset : ring.set head false = ring.set ((head + 0) % ring.length) false := by
    rw [Nat.add_zero, Nat.mod_eq_of_lt hhead]
  have hmod : (ring.set head false).rotate ((head + 1) % ring.length) =
      (ring.set head false).rotate (head + 1) := by
    have h := rotate_mod (ring.set head false) (head + 1)
    rwa [length_set] at h
  rw [hmod, ← rotate_rotate, hset, rotate_set hpos]
  cases hbits : ring.rotate head with
  | nil =>
    have hlen := congrArg List.length hbits
    rw [length_rotate] at hlen
    exact absurd hlen (Nat.ne_of_gt hpos)
  | cons b rest =>
    rw [set_cons_zero, rotate_cons_succ, rotate_zero, slide, drop_one,
      tail_cons, length_cons, Nat.min_eq_left (Nat.le_add_left 1 _)]
    rfl

end Ring

end SlidingBits
