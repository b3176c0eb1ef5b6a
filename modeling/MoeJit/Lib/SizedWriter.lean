import MoeJit.Lib.ByteReader

/-!
# Writing into memory under a limit

A writer adds up the size of what it is going to write, gives up when the sum is over a limit, and
writes words and blocks of bytes one after another. Blocks are padded to four bytes, and the padding
is left as it was. What has been written is an image, with a hole for a byte that was not.

`Writes` says what a writer adds to the image and how much of the limit it takes, `Loads` what a
reader finds in memory that has an image. Both compose over `>>=` and over lists.
-/

namespace SizedWriter

open Bytes ByteReader List
open BitVec (add_zero ofNat ofNat_add toNat_add toNat_ofNat)

/-- What is written from an address on, with `none` for a byte left as it was. -/
abbrev Image := List (Option Byte)

/-- Memory that has what was written. -/
def Fills (image : Image) (memory : List Byte) : Prop :=
  List.Forall₂ (fun b c => ∀ x ∈ c, b = x) memory image

/-- A word in memory, with the least significant byte first. -/
def word {k : Nat} (x : BitVec (8 * k)) : Image := (toBytes x).map some

/-- A 32-bit word. -/
abbrev word32 (x : BitVec 32) : Image := word (k := 4) x

/-- A block of bytes. -/
def block (bytes : List Byte) : Image := bytes.map some

/-- Bytes that are passed over. -/
def hole (n : Nat) : Image := List.replicate n none

/-- The next multiple of four. -/
def padded (n : BitVec 32) : BitVec 32 := (n + 3) &&& ~~~3#32

/-- The next multiple of four, without a wrap. -/
def roundUp (n : Nat) : Nat := (n + 3) / 4 * 4

@[simp] theorem length_word {k : Nat} (x : BitVec (8 * k)) : (word x).length = k := by
  rw [word, length_map, length_toBytes]

@[simp] theorem length_block (bytes : List Byte) : (block bytes).length = bytes.length :=
  length_map _

@[simp] theorem length_hole (n : Nat) : (hole n).length = n := length_replicate

theorem le_roundUp (n : Nat) : n ≤ roundUp n := by
  unfold roundUp
  omega

theorem roundUp_le (n : Nat) : roundUp n ≤ n + 3 := by
  unfold roundUp
  omega

theorem dvd_roundUp (n : Nat) : 4 ∣ roundUp n := Nat.dvd_mul_left 4 _

theorem roundUp_of_dvd {n : Nat} (h : 4 ∣ n) : roundUp n = n := by
  unfold roundUp
  omega

theorem toNat_and_not_three (x : BitVec 32) : (x &&& ~~~3#32).toNat = x.toNat / 4 * 4 := by
  have hshift : x &&& ~~~3#32 = x >>> 2 <<< 2 := by
    ext i hi
    have hthree : ∀ j < 32, (3#32).getLsbD j = decide (j < 2) := by decide
    rw [BitVec.getElem_and, BitVec.getElem_not, BitVec.getElem_shiftLeft,
      ← BitVec.getLsbD_eq_getElem (x := 3#32), hthree i hi]
    rcases lt_or_ge i 2 with hlt | hge
    · simp [hlt]
    · simp [not_lt.mpr hge, Nat.add_sub_cancel' hge, BitVec.getLsbD_eq_getElem hi]
  rw [hshift, BitVec.toNat_shiftLeft, BitVec.toNat_ushiftRight, Nat.shiftRight_eq_div_pow,
    Nat.shiftLeft_eq, Nat.mod_eq_of_lt]
  exact (Nat.div_mul_le_self _ _).trans_lt x.isLt

theorem padded_ofNat (n : Nat) : padded (ofNat 32 n) = ofNat 32 (roundUp n) := by
  refine BitVec.eq_of_toNat_eq ?_
  rw [padded, toNat_and_not_three, toNat_add, toNat_ofNat, toNat_ofNat, roundUp]
  show (n % 2 ^ 32 + 3) % 2 ^ 32 / 4 * 4 = _
  omega

theorem foldl_size {α : Type} {step : BitVec 32 → α → BitVec 32} {size : α → Nat}
    (h : ∀ s a, step s a = s + ofNat 32 (size a)) (l : List α) (n : Nat) :
    l.foldl step (ofNat 32 n) = ofNat 32 (n + (l.map size).sum) := by
  induction l generalizing n with
  | nil => rfl
  | cons a l ih =>
    rw [foldl_cons, h, ← ofNat_add, ih, map_cons, sum_cons, add_assoc]

/-! ## 1. Writers -/

/-- What a writer has added up and written. -/
structure Out where
  size : BitVec 32 := 0
  image : Image := []
  deriving DecidableEq

/-- Writers, which may give up and leave what they have written. -/
abbrev Put := ExceptT Unit (StateM Out)

/-- Adds to the size, which is not to be over the limit. -/
def need (max n : BitVec 32) : Put Unit := fun s =>
  (if s.size + n > max then .error () else .ok (), { s with size := s.size + n })

/-- Writes at the end. -/
def put (w : Image) : Put Unit := fun s => (.ok (), { s with image := s.image ++ w })

/-- The 32-bit word at the front of the image. -/
def front (image : Image) : BitVec 32 := ofBytes 4 ((image.take 4).map fun c => c.getD 0)

/-- The image with the word at its front counted up. -/
def countedUp (image : Image) : Image := word32 (front image + 1) ++ image.drop 4

/-- Counts up the word at the front. -/
def countUp : Put Unit := fun s => (.ok (), { s with image := countedUp s.image })

/-- Writes what another writer has written, and gives up if it did. -/
def call (result : Image × Bool) : Put Unit := fun s =>
  (if result.2 then .ok () else .error (), { s with image := s.image ++ result.1 })

/-- A block of bytes and its padding. -/
def paddedBlock (bytes : List Byte) : Image :=
  block bytes ++ hole (roundUp bytes.length - bytes.length)

@[simp] theorem length_paddedBlock (bytes : List Byte) :
    (paddedBlock bytes).length = roundUp bytes.length := by
  rw [paddedBlock, length_append, length_block, length_hole, Nat.add_sub_cancel' (le_roundUp _)]

/-- Writes a block of bytes and passes over its padding. -/
def putPadded (bytes : List Byte) : Put Unit := put (paddedBlock bytes)

/-- What a writer has written, and whether it has written everything. -/
def run (x : Put Unit) : Image × Bool :=
  match x {} with
  | (.ok _, s) => (s.image, true)
  | (.error _, s) => (s.image, false)

theorem put_bind (x y : Put Unit) (s : Out) :
    (x >>= fun _ => y) s = match x s with
      | (.ok _, t) => y t
      | (.error e, t) => (.error e, t) := by
  show ExceptT.bindCont (fun _ => y) (x s).1 (x s).2 = _
  rcases x s with ⟨_ | _, _⟩ <;> rfl

/-- A writer takes `n` of what is left of the limit, and then does `f` to the image. -/
structure Writes (max : BitVec 32) (x : Put Unit) (n : Nat) (f : Image → Image) : Prop where
  written : ∀ s t, x s = (.ok (), t) → t = ⟨s.size + BitVec.ofNat 32 n, f s.image⟩
  fits : ∀ s, s.size.toNat + n ≤ max.toNat → ∃ t, x s = (.ok (), t)

section Writers

variable {max : BitVec 32} {x y : Put Unit} {n m : Nat} {f g : Image → Image}

theorem writes_pure : Writes max (pure ()) 0 id where
  written s t h := by
    cases h
    rw [add_zero]
    rfl
  fits s _ := ⟨s, rfl⟩

theorem writes_need : Writes max (need max (ofNat 32 n)) n id where
  written s t h := by
    unfold need at h
    split at h
    · cases h
    · cases h
      rfl
  fits s h := by
    have hsize : (s.size + ofNat 32 n).toNat ≤ max.toNat := by
      rw [toNat_add, toNat_ofNat, Nat.add_mod_mod]
      exact (Nat.mod_le _ _).trans h
    exact ⟨_, Prod.ext (if_neg (not_lt.mpr hsize)) rfl⟩

theorem writes_put (w : Image) : Writes max (put w) 0 (· ++ w) where
  written s t h := by
    cases h
    rw [add_zero]
  fits s _ := ⟨_, rfl⟩

theorem writes_countUp : Writes max countUp 0 countedUp where
  written s t h := by
    cases h
    rw [add_zero]
  fits s _ := ⟨_, rfl⟩

theorem Writes.bind (hx : Writes max x n f) (hy : Writes max y m g) :
    Writes max (x >>= fun _ => y) (n + m) (g ∘ f) where
  written s t h := by
    rw [put_bind] at h
    split at h
    · next u hu =>
      rw [hy.written u t h, hx.written s u hu, ofNat_add, BitVec.add_assoc]
      rfl
    · cases h
  fits s h := by
    rw [← add_assoc] at h
    have hfirst : s.size.toNat + n ≤ max.toNat := Nat.le_of_add_right_le h
    obtain ⟨u, hu⟩ := hx.fits s hfirst
    have hsize : u.size.toNat = s.size.toNat + n := by
      rw [hx.written s u hu, toNat_add, toNat_ofNat, Nat.add_mod_mod]
      exact Nat.mod_eq_of_lt (hfirst.trans_lt max.isLt)
    obtain ⟨t, ht⟩ := hy.fits u (hsize ▸ h)
    refine ⟨t, ?_⟩
    rw [put_bind, hu]
    exact ht

theorem Writes.congr (hx : Writes max x n f) (hn : n = m) (hf : ∀ image, f image = g image) :
    Writes max x m g := by
  subst hn
  rwa [← funext hf]

theorem writes_field (w : Image) (hy : Writes max y m g) :
    Writes max (do need max (ofNat 32 n); put w; y) (n + m) fun image => g (image ++ w) :=
  (writes_need.bind ((writes_put w).bind hy)).congr (by rw [zero_add]) fun _ => rfl

theorem writes_lastField (w : Image) :
    Writes max (do need max (ofNat 32 n); put w) n fun image => image ++ w :=
  writes_need.bind (writes_put w)

/-- A block of bytes, for which there has to be room with its padding. -/
theorem writes_padded (bytes : List Byte) (hy : Writes max y m g) :
    Writes max (do need max (padded (ofNat 32 bytes.length)); putPadded bytes; y)
      (roundUp bytes.length + m)
      fun image => g (image ++ paddedBlock bytes) := by
  rw [padded_ofNat]
  exact writes_field _ hy

theorem writes_forM {α : Type} {x : α → Put Unit} {size : α → Nat} {f : α → Image → Image}
    (hx : ∀ a, Writes max (x a) (size a) (f a)) (l : List α) :
    Writes max (l.forM x) (l.map size).sum fun image => l.foldl (fun i a => f a i) image := by
  induction l with
  | nil => exact writes_pure
  | cons a l ih => exact (hx a).bind ih

end Writers

theorem countedUp_word (x : BitVec 32) (image : Image) :
    countedUp (word32 x ++ image) = word32 (x + 1) ++ image := by
  have hlen : (word32 x).length = 4 := length_word (k := 4) x
  have hfront : front (word32 x ++ image) = x := by
    rw [front, take_left' hlen]
    calc ofBytes 4 (((toBytes (k := 4) x).map some).map fun c => c.getD 0)
        = ofBytes 4 (toBytes (k := 4) x) := by
          rw [map_map]
          exact congrArg _ (map_id _)
      _ = x := ofBytes_toBytes (k := 4) x
  rw [countedUp, hfront, drop_left' hlen]

theorem foldl_countedUp {α : Type} (w : α → Image) (l : List α) (n : Nat) (image : Image) :
    l.foldl (fun i a => countedUp (i ++ w a)) (word32 (ofNat 32 n) ++ image) =
      word32 (ofNat 32 (n + l.length)) ++ (image ++ l.flatMap w) := by
  induction l generalizing n image with
  | nil =>
    rw [foldl_nil, flatMap_nil, append_nil]
    rfl
  | cons a l ih =>
    have hcount : countedUp (word32 (ofNat 32 n) ++ image ++ w a) =
        word32 (ofNat 32 (n + 1)) ++ (image ++ w a) := by
      rw [append_assoc, countedUp_word, ofNat_add]
      rfl
    rw [foldl_cons, hcount, ih, flatMap_cons, length_cons, Nat.add_right_comm,
      append_assoc, add_assoc]

/-- Writing all of a section takes `n` bytes of the limit and writes `w`. -/
structure Serializes (serialize : BitVec 32 → Image × Bool) (n : Nat) (w : Image) : Prop where
  written : ∀ max, (serialize max).2 = true → (serialize max).1 = w
  fits : ∀ max, n ≤ max.toNat → (serialize max).2 = true

/-- A section is written by a writer of its own. -/
theorem serializes_run {x : BitVec 32 → Put Unit} {n : Nat} {f : Image → Image}
    (hx : ∀ max, Writes max (x max) n f) : Serializes (fun max => run (x max)) n (f []) where
  written max h := by
    unfold run at h ⊢
    split
    · next t ht => rw [(hx max).written _ t ht]
    · next t ht =>
      rw [ht] at h
      cases h
  fits max h := by
    obtain ⟨t, ht⟩ := (hx max).fits {} (by rwa [show ({} : Out).size.toNat = 0 from rfl, zero_add])
    unfold run
    rw [ht]

/-- A section that is a list, with the number of its items at the front. -/
theorem serializes_counted {α : Type} {x : BitVec 32 → α → Put Unit} {size : α → Nat}
    {w : α → Image} (hx : ∀ max a, Writes max (x max a) (size a) fun i => countedUp (i ++ w a))
    (l : List α) :
    Serializes (fun max => run do need max 4; put (word32 0); l.forM (x max))
      (4 + (l.map size).sum) (word32 (ofNat 32 l.length) ++ l.flatMap w) := by
  have h := serializes_run fun max => writes_field (n := 4) (word32 0) (writes_forM (hx max) l)
  have himage : l.foldl (fun i a => countedUp (i ++ w a)) (word32 0) =
      word32 (ofNat 32 l.length) ++ l.flatMap w := by
    have hfold := foldl_countedUp w l 0 []
    rwa [append_nil, nil_append, zero_add] at hfold
  rwa [nil_append, himage] at h

/-- The length of a section and of its own word, and the section, which is called with the size that
it asks for. -/
def putSection (max size : BitVec 32) (serialize : BitVec 32 → Image × Bool) : Put Unit := do
  need max size
  put (word32 (size + 4))
  call (serialize size)

variable {w : Image} {memory : List Byte}

theorem writes_putSection {serialize : BitVec 32 → Image × Bool} {n : Nat} {max : BitVec 32}
    (h : Serializes serialize n w) :
    Writes max (putSection max (ofNat 32 n) serialize) n
      (· ++ (word32 (ofNat 32 n + 4) ++ w)) := by
  have hneed := (writes_need : Writes max (need max (ofNat 32 n)) n id).bind
    (writes_put (word32 (ofNat 32 n + 4)))
  constructor
  · intro s t ht
    rw [putSection, ← bind_assoc, put_bind] at ht
    split at ht
    · next u hu =>
      cases hok : (serialize (ofNat 32 n)).2 with
      | true =>
        rw [call, hok, h.written _ hok] at ht
        cases ht
        rw [hneed.written s u hu]
        exact congrArg (Out.mk _) (append_assoc _ _ _)
      | false =>
        rw [call, hok] at ht
        cases ht
    · cases ht
  · intro s hs
    have hn : (ofNat 32 n).toNat = n :=
      Nat.mod_eq_of_lt ((Nat.le_of_add_left_le hs).trans_lt max.isLt)
    obtain ⟨u, hu⟩ := hneed.fits s hs
    refine ⟨(call (serialize (ofNat 32 n)) u).2, ?_⟩
    rw [putSection, ← bind_assoc, put_bind, hu]
    exact Prod.ext (if_pos (h.fits _ hn.ge)) rfl

/-! ## 2. Readers -/

variable {ε α β : Type}

/-- `x` reads `a` from memory that has the image. -/
def Loads (x : Reader ε α) (w : Image) (a : α) : Prop := ∀ memory, Fills w memory → Reads x memory a

theorem fills_append {v : Image} (h : Fills (w ++ v) memory) :
    ∃ m m', memory = m ++ m' ∧ Fills w m ∧ Fills v m' :=
  ⟨_, _, (take_append_drop w.length memory).symm, forall₂_take_append _ _ _ h,
    forall₂_drop_append _ _ _ h⟩

theorem fills_block {bytes : List Byte} (h : Fills (block bytes) memory) : memory = bytes := by
  rw [Fills, block, forall₂_map_right_iff] at h
  exact forall₂_eq_eq_eq.subst (motive := fun R => R memory bytes) (h.imp fun b x hb => hb x rfl)

theorem fills_block_self (bytes : List Byte) : Fills (block bytes) bytes := by
  rw [Fills, block, forall₂_map_right_iff]
  exact forall₂_same.mpr fun b _ x hx => Option.some.inj hx

theorem exists_fills (w : Image) : ∃ memory, Fills w memory := by
  refine ⟨w.map fun c => c.getD 0, ?_⟩
  rw [Fills, forall₂_map_left_iff]
  exact forall₂_same.mpr fun c _ x hx => by rw [Option.mem_def.mp hx]; rfl

theorem Fills.length_eq (h : Fills w memory) : memory.length = w.length := List.Forall₂.length_eq h

theorem Loads.bind {x : Reader ε α} {f : α → Reader ε β} {v : Image} {a : α} {b : β}
    (hx : Loads x w a) (hf : Loads (f a) v b) : Loads (x >>= f) (w ++ v) b := by
  intro memory h
  obtain ⟨m, m', rfl, hm, hm'⟩ := fills_append h
  exact (hx m hm).bind (hf m' hm')

theorem Loads.map {x : Reader ε α} {a : α} {f : α → β} (hx : Loads x w a) :
    Loads (do let a ← x; return f a) w (f a) := fun memory h => (hx memory h).map

/-- Reads without moving on. -/
def lookAhead (x : Reader ε α) : Reader ε α := fun s => (fun r => (r.1, s)) <$> x s

/-- Reads from the next `n` bytes only. -/
def within (n : Nat) (x : Reader ε α) : Reader ε α := fun s =>
  (fun r => (r.1, r.2 ++ s.drop n)) <$> x (s.take n)

/-- The same read `n` times, with a value that each passes to the next. -/
def manyWith {σ : Type} (x : σ → Reader ε (α × σ)) : Nat → σ → Reader ε (List α × σ)
  | 0, c => pure ([], c)
  | n + 1, c => do
    let r ← x c
    let rest ← manyWith x n r.2
    return (r.1 :: rest.1, rest.2)

section Words

variable [EndOfInput ε]

/-- The next word of `k` bytes, the least significant first. -/
def load (k : Nat) : Reader ε (BitVec (8 * k)) := do
  let w ← raw k
  return ofBytes k w

/-- The next 32-bit word. -/
abbrev load32 : Reader ε (BitVec 32) := load 4

end Words

end SizedWriter
