import MoeJit.Lib.Bytes

/-!
# Reading a sequence of bytes

A reader takes bytes from the front of its input and returns a value with what is
left, or fails. Words are stored with the most significant byte first.

`Reads x w a` says that `x` reads the value `a` from the bytes `w` whatever comes
after them; it composes over `>>=` and over repeated reads. `Takes x s t` says that
`x` gets from the input `s` to `t`, and the simp set of this module computes it along
a sequence of reads.
-/

namespace ByteReader

open Bytes List

/-- Readers that may fail with `ε`. -/
abbrev Reader (ε : Type) := StateT (List Byte) (Except ε)

/-- The failure of a read past the end of the input. -/
class EndOfInput (ε : Type) where
  endOfInput : ε

variable {ε α β : Type}

/-- The same read `n` times. -/
def many (x : Reader ε α) : Nat → Reader ε (List α)
  | 0 => pure []
  | n + 1 => do
    let a ← x
    let as ← many x n
    return a :: as

section Operations

variable [EndOfInput ε]

/-- The next `n` bytes. -/
def raw (n : Nat) : Reader ε (List Byte) := fun s =>
  if n ≤ s.length then .ok (s.take n, s.drop n) else .error EndOfInput.endOfInput

/-- The next word of `k` bytes. -/
def get (k : Nat) : Reader ε (BitVec (8 * k)) := do
  let w ← raw k
  return ofBytes k w.reverse

/-- How many bytes are left. -/
def left : Reader ε Nat := fun s => .ok (s.length, s)

/-- Moves on, possibly past the end, where every read fails. -/
def seek (n : Nat) : Reader ε Unit := fun s => .ok ((), s.drop n)

end Operations

/-- The bytes of a word. -/
def put {k : Nat} (x : BitVec (8 * k)) : List Byte := (toBytes x).reverse

@[simp] theorem length_put {k : Nat} (x : BitVec (8 * k)) : (put x).length = k := by
  rw [put, length_reverse, length_toBytes]

/-! ## 1. Exact reads -/

/-- `x` reads `a` from exactly the bytes `w`. -/
def Reads (x : Reader ε α) (w : List Byte) (a : α) : Prop := ∀ s, x (w ++ s) = .ok (a, s)

theorem bind_apply (x : Reader ε α) (f : α → Reader ε β) (s : List Byte) :
    (x >>= f) s = x s >>= fun p => f p.1 p.2 := rfl

variable {s w t : List Byte} {n : Nat}

variable {x : Reader ε α} {f : α → Reader ε β} {a : α} {m : Nat}

theorem bind_eq_ok {r : β × List Byte} :
    (x >>= f) s = .ok r ↔ ∃ a u, x s = .ok (a, u) ∧ f a u = .ok r := by
  rw [bind_apply]
  cases h : x s with
  | error e =>
    constructor
    · intro h
      cases h
    · rintro ⟨_, _, h, _⟩
      cases h
  | ok p =>
    constructor
    · intro h
      exact ⟨p.1, p.2, rfl, h⟩
    · rintro ⟨_, _, h, hf⟩
      cases h
      exact hf

theorem reads_pure (a : α) : Reads (pure a : Reader ε α) [] a := fun _ => rfl

theorem Reads.bind {w' : List Byte} {b : β} (hx : Reads x w a) (hf : Reads (f a) w' b) :
    Reads (x >>= f) (w ++ w') b := by
  intro s
  rw [bind_apply, append_assoc, hx]
  exact hf s

theorem Reads.map {f : α → β} (hx : Reads x w a) : Reads (do let a ← x; return f a) w (f a) := by
  intro s
  rw [bind_apply, hx]
  rfl

theorem Reads.many {write : α → List Byte} (hx : ∀ a, Reads x (write a) a) (l : List α) :
    Reads (many x l.length) (l.flatMap write) l := by
  induction l with
  | nil => exact reads_pure []
  | cons a l ih =>
    rw [flatMap_cons]
    exact (hx a).bind ih.map

/-! ## 2. From one input to another -/

/-- `x` succeeds on `s` and leaves `t`. -/
def Takes (x : Reader ε α) (s t : List Byte) : Prop := ∃ a, x s = .ok (a, t)

@[simp] theorem takes_pure : Takes (pure a : Reader ε α) s t ↔ s = t := by
  constructor
  · rintro ⟨_, h⟩
    cases h
    rfl
  · rintro rfl
    exact ⟨a, rfl⟩

theorem Reads.bind_eq (hx : Reads x w a) (f : α → Reader ε β) (s : List Byte) :
    (x >>= f) (w ++ s) = f a s := by
  rw [bind_apply, hx]
  rfl

theorem Reads.takes (hx : Reads x w a) : Takes (x >>= f) (w ++ s) t ↔ Takes (f a) s t := by
  unfold Takes
  rw [hx.bind_eq]

theorem takes_bind : Takes (x >>= f) s t ↔ ∃ a u, x s = .ok (a, u) ∧ Takes (f a) u t := by
  constructor
  · rintro ⟨b, h⟩
    obtain ⟨a, u, hu, hf⟩ := bind_eq_ok.mp h
    exact ⟨a, u, hu, b, hf⟩
  · rintro ⟨a, u, hu, b, hf⟩
    exact ⟨b, bind_eq_ok.mpr ⟨a, u, hu, hf⟩⟩

/-! ## 3. Reads of a known size -/

/-- `x` succeeds on every input of `n` bytes or more and takes `n` of them. -/
def Skips (x : Reader ε α) (n : Nat) : Prop := ∀ s, n ≤ s.length → ∃ a, x s = .ok (a, s.drop n)

theorem skips_pure (a : α) : Skips (pure a : Reader ε α) 0 := fun _ _ => ⟨a, rfl⟩

theorem Skips.bind (hx : Skips x n) (hf : ∀ a, Skips (f a) m) : Skips (x >>= f) (n + m) := by
  intro s hs
  obtain ⟨a, ha⟩ := hx s (by omega)
  obtain ⟨b, hb⟩ := hf a (s.drop n) (by rw [length_drop]; omega)
  refine ⟨b, ?_⟩
  rw [bind_apply, ha, ← drop_drop]
  exact hb

theorem Skips.map (hx : Skips x n) (f : α → β) :
    Skips (do let a ← x; return f a) n := hx.bind fun a => skips_pure (f a)

theorem Skips.many (hx : Skips x n) (k : Nat) : Skips (many x k) (k * n) := by
  induction k with
  | zero =>
    rw [Nat.zero_mul]
    exact skips_pure []
  | succ k ih =>
    rw [Nat.succ_mul, add_comm (k * n)]
    exact hx.bind fun a => ih.map _

/-- `x` takes exactly the bytes `w`, whatever it reads from them. -/
def Passes (x : Reader ε α) (w : List Byte) : Prop := ∀ s, Takes x (w ++ s) s

theorem Reads.passes (hx : Reads x w a) : Passes x w := fun s => ⟨a, hx s⟩

theorem Skips.passes (hx : Skips x n) (hw : w.length = n) : Passes x w := by
  intro s
  subst n
  obtain ⟨a, ha⟩ := hx (w ++ s) (by rw [length_append]; exact Nat.le_add_right _ _)
  rw [drop_left] at ha
  exact ⟨a, ha⟩

theorem passes_pure (a : α) : Passes (pure a : Reader ε α) [] := (reads_pure a).passes

theorem Passes.bind {w' : List Byte} (hx : Passes x w) (hf : ∀ a, Passes (f a) w') :
    Passes (x >>= f) (w ++ w') := by
  intro s
  rw [append_assoc]
  obtain ⟨a, ha⟩ := hx (w' ++ s)
  exact takes_bind.mpr ⟨a, _, ha, hf a s⟩

theorem Passes.many {write : β → List Byte} (hx : ∀ b, Passes x (write b)) (l : List β) :
    Passes (many x l.length) (l.flatMap write) := by
  induction l with
  | nil => exact passes_pure []
  | cons b l ih =>
    rw [flatMap_cons]
    refine (hx b).bind fun a => ?_
    have h := ih.bind fun as => passes_pure (ε := ε) (a :: as)
    rwa [append_nil] at h

/-- What is not used of a read plays no part. -/
theorem Passes.takes (hx : Passes x w) {y : Reader ε β} :
    Takes (x >>= fun _ => y) (w ++ s) t ↔ Takes y s t := by
  obtain ⟨a, ha⟩ := hx s
  constructor
  · intro h
    obtain ⟨_, u, hu, hy⟩ := takes_bind.mp h
    rw [ha] at hu
    cases hu
    exact hy
  · intro h
    exact takes_bind.mpr ⟨a, s, ha, h⟩

/-- `x` takes `n` bytes or more whenever it succeeds. -/
def Consumes (x : Reader ε α) (n : Nat) : Prop := ∀ s t, Takes x s t → n + t.length ≤ s.length

theorem Consumes.not_takes (hx : Consumes x n) (hn : 0 < n) (s : List Byte) : ¬Takes x s s := by
  intro h
  have := hx s s h
  omega

theorem consumes_pure (a : α) : Consumes (pure a : Reader ε α) 0 := by
  intro s t h
  rw [takes_pure.mp h, zero_add]

theorem Consumes.bind (hx : Consumes x n) (hf : ∀ a, Consumes (f a) m) :
    Consumes (x >>= f) (n + m) := by
  intro s t h
  obtain ⟨a, u, hu, ht⟩ := takes_bind.mp h
  have hfirst := hx s u ⟨a, hu⟩
  have hsecond := hf a u t ht
  omega

theorem Consumes.many (hx : Consumes x 0) (n : Nat) : Consumes (many x n) 0 := by
  induction n with
  | zero => exact consumes_pure []
  | succ n ih => exact hx.bind fun _ => ih.bind fun _ => consumes_pure _

theorem Consumes.mono (hx : Consumes x n) (hm : m ≤ n) :
    Consumes x m := fun s t h => (Nat.add_le_add_right hm _).trans (hx s t h)

/-! ## 4. Words -/

variable [EndOfInput ε]

theorem reads_raw (w : List Byte) : Reads (raw w.length : Reader ε _) w w := by
  intro s
  rw [raw, if_pos (by rw [length_append]; exact Nat.le_add_right _ _), take_left, drop_left]

theorem reads_get {k : Nat} (x : BitVec (8 * k)) : Reads (get k : Reader ε _) (put x) x := by
  have h := (reads_raw (put x) (ε := ε)).map (f := fun w => ofBytes k w.reverse)
  rw [length_put] at h
  rwa [put, reverse_reverse, ofBytes_toBytes] at h

theorem skips_raw (n : Nat) : Skips (raw n : Reader ε _) n := by
  intro s hs
  exact ⟨s.take n, if_pos hs⟩

theorem skips_get (k : Nat) : Skips (get k : Reader ε _) k := (skips_raw k).map _

theorem consumes_raw (n : Nat) : Consumes (raw n : Reader ε _) n := by
  intro s t h
  obtain ⟨w, h⟩ := h
  unfold raw at h
  split at h
  · next hn =>
    cases h
    rw [length_drop]
    omega
  · cases h

theorem consumes_get (k : Nat) : Consumes (get k : Reader ε _) k :=
  (consumes_raw k).bind fun _ => consumes_pure _

/-! ## 5. Readers that never go back -/

/-- `x` leaves no more than it was given. The instances follow the way a reader is put
together. -/
class Forward (x : Reader ε α) : Prop where
  consumes : Consumes x 0

instance forward_pure (a : α) : Forward (pure a : Reader ε α) := ⟨consumes_pure a⟩

instance forward_bind {x : Reader ε α} {f : α → Reader ε β} [hx : Forward x]
    [hf : ∀ a, Forward (f a)] : Forward (x >>= f) :=
  ⟨hx.consumes.bind fun a => (hf a).consumes⟩

instance forward_map {x : Reader ε α} (f : α → β) [hx : Forward x] : Forward (f <$> x) := by
  rw [← bind_pure_comp]
  exact forward_bind

instance forward_discard {x : Reader ε α} [Forward x] : Forward (discard x) := forward_map _

instance forward_many {x : Reader ε α} (n : Nat) [hx : Forward x] : Forward (many x n) :=
  ⟨hx.consumes.many n⟩

instance forward_ite {c : Prop} [Decidable c] {x y : Reader ε α} [hx : Forward x]
    [hy : Forward y] : Forward (if c then x else y) := by
  split
  · exact hx
  · exact hy

instance forward_throw (e : ε) : Forward (throw e : Reader ε α) := by
  constructor
  rintro s t ⟨a, h⟩
  cases h

instance forward_get_input : Forward (StateT.get : Reader ε (List Byte)) := by
  constructor
  rintro s t ⟨a, h⟩
  cases h
  exact (Nat.zero_add _).le

instance forward_raw (n : Nat) : Forward (raw n : Reader ε _) :=
  ⟨(consumes_raw n).mono (Nat.zero_le n)⟩

instance forward_get (k : Nat) : Forward (get k : Reader ε _) :=
  ⟨(consumes_get k).mono (Nat.zero_le k)⟩

instance forward_left : Forward (left : Reader ε Nat) := by
  constructor
  rintro s t ⟨a, h⟩
  cases h
  exact (Nat.zero_add _).le

instance forward_seek (n : Nat) : Forward (seek n : Reader ε Unit) := by
  constructor
  rintro s t ⟨a, h⟩
  cases h
  rw [Nat.zero_add, List.length_drop]
  exact Nat.sub_le _ n

end ByteReader
