import MoeJit.Lib.ByteReader

/-!
# Readers that call themselves

A reader that calls itself on what is left of its input is run with one level more than the input has
bytes. When each level takes a byte or more before it calls the next one (`Local`), no call is cut
off, and the reader is what its level makes of it (`nested_eq`).
-/

namespace NestedReader

open ByteReader

variable {ι ε α β : Type}

/-- `n` levels, the last of which is cut off. -/
def levels (step : (ι → Reader ε β) → ι → Reader ε β) (cutOff : Reader ε β) : Nat → ι → Reader ε β
  | 0 => fun _ => cutOff
  | n + 1 => step (levels step cutOff n)

def nested (step : (ι → Reader ε β) → ι → Reader ε β) (cutOff : Reader ε β) (i : ι) : Reader ε β :=
  fun s => levels step cutOff (s.length + 1) i s

/-- A level depends on the next ones on shorter inputs only. -/
def Local (step : (ι → Reader ε β) → ι → Reader ε β) : Prop :=
  ∀ f g s, (∀ i t, t.length < s.length → f i t = g i t) → ∀ i, step f i s = step g i s

variable {step : (ι → Reader ε β) → ι → Reader ε β} {cutOff : Reader ε β}

theorem levels_eq (hlocal : Local step) {n m : Nat} {s : List Bytes.Byte} (hn : s.length < n)
    (hm : s.length < m) (i : ι) : levels step cutOff n i s = levels step cutOff m i s := by
  induction n generalizing m s i with
  | zero => exact absurd hn (Nat.not_lt_zero _)
  | succ n ih =>
    cases m with
    | zero => exact absurd hm (Nat.not_lt_zero _)
    | succ m =>
      refine hlocal _ _ s (fun i t ht => ih ?_ ?_ i) i
      · exact ht.trans_le (Nat.le_of_lt_succ hn)
      · exact ht.trans_le (Nat.le_of_lt_succ hm)

theorem nested_eq (hlocal : Local step) (i : ι) (s : List Bytes.Byte) :
    nested step cutOff i s = step (nested step cutOff) i s := by
  refine hlocal _ _ s (fun i t ht => ?_) i
  exact levels_eq hlocal ht (Nat.lt_succ_self _) i

theorem bind_congr_of_consumes {x : Reader ε α} {f g : α → Reader ε β} {n : Nat}
    (hx : Consumes x n) {s : List Bytes.Byte}
    (h : ∀ a t, n + t.length ≤ s.length → f a t = g a t) : (x >>= f) s = (x >>= g) s := by
  rw [bind_apply, bind_apply]
  cases hread : x s with
  | error e => rfl
  | ok p => exact h p.1 p.2 (hx s p.2 ⟨p.1, hread⟩)

end NestedReader
