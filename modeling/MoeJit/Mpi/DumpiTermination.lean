import MoeJit.Mpi.Dumpi

/-!
# The end of a DUMPI trace

The loop of the reader never asks whether the file had the bytes that it read. A read
that fails leaves its variable as it was, so that past the end of the file the functions
come from whatever the memory holds.

`endsWithin_iff`: the loop takes at most as many turns as the file has bytes, whatever the
failed reads leave, if and only if the file has bytes left whenever the loop looks for the
next function, and not a single zero. A trace cut off between two records does not have
them (`unmarked_not_endsWithin`).
-/

namespace MoeJit.Dumpi

open Bytes ByteReader

/-! ## 1. Reads of a file -/

/-- `x` on a file that has the bytes `rest` left. What the file lacks is taken from
`scratch`: a read that fails part of the way has stored the bytes up to the end, and none
of the reads after it stores anything. -/
def onFile {α : Type} (x : Trace α) (scratch rest : List Byte) : Except Failure (α × List Byte) :=
  (x (rest ++ scratch)).map fun p => (p.1, p.2.take (p.2.length - scratch.length))

/-- A turn of the loop. There is none at the end of the stream, where nothing depends on
the `startRead` before the loop. -/
def turn : Trace (Option (List MPIFunction)) := do
  let mpiFunction ← findNextFunction
  if mpiFunction < endOfStream then do
    let configMask ← startRead
    let dispatched ← readCase mpiFunction configMask
    return some dispatched.queued
  else return none

/-- The loop, with the bytes that its turns find in place of those that the file lacks.
`none` when it has to go on after `fuel` turns. -/
def recordLoop (scratch : Nat → List Byte) :
    Nat → List Byte → Option (Except Failure (List MPIFunction))
  | 0, rest =>
    match onFile findNextFunction (scratch 0) rest with
    | .ok (mpiFunction, _) => if mpiFunction < endOfStream then none else some (.ok [])
    | .error e => some (.error e)
  | fuel + 1, rest =>
    match onFile turn (scratch 0) rest with
    | .ok (some queued, rest) =>
      (recordLoop (fun n => scratch (n + 1)) fuel rest).map fun r => r.map (queued ++ ·)
    | .ok (none, _) => some (.ok [])
    | .error e => some (.error e)

/-- `parse_trace` with at most `fuel` turns. -/
def parseFile (scratch : Nat → List Byte) (fuel : Nat) (file : List Byte) :
    Option (Except Failure (List MPIFunction)) :=
  match onFile handleHeader (scratch 0) file with
  | .ok (_, rest) => recordLoop (fun n => scratch (n + 1)) fuel rest
  | .error e => some (.error e)

/-- The loop ends within as many turns as the file has bytes. -/
def EndsWithin (file : List Byte) : Prop :=
  ∀ scratch, (parseFile scratch file.length file).isSome

/-! ## 2. Turns -/

/-- `k` turns lead from `rest` to `rest'`. -/
inductive Turns : Nat → List Byte → List Byte → Prop
  | none {rest : List Byte} : Turns 0 rest rest
  | more {k : Nat} {scratch rest rest' rest'' : List Byte} {queued : List MPIFunction} :
      onFile turn scratch rest = .ok (some queued, rest') → Turns k rest' rest'' →
      Turns (k + 1) rest rest''

/-- The loop looks for the next function with `rest` left, after `k` turns. -/
def Finds (file : List Byte) (k : Nat) (rest : List Byte) : Prop :=
  ∃ scratch rest₀, onFile handleHeader scratch file = .ok ((), rest₀) ∧ Turns k rest₀ rest

/-- The loop may go on. -/
def Starts (rest : List Byte) : Prop :=
  ∃ scratch mpiFunction left,
    onFile findNextFunction scratch rest = .ok (mpiFunction, left) ∧ mpiFunction < endOfStream

variable {α : Type} {scratch rest rest' file : List Byte} {queued : List MPIFunction} {fuel : Nat}
  {mpiFunction : BitVec 16} {turns : List Dispatch}

theorem onFile_eq_ok {x : Trace α} {a : α} : onFile x scratch rest = .ok (a, rest') ↔
      ∃ t, x (rest ++ scratch) = .ok (a, t) ∧ rest' = t.take (t.length - scratch.length) := by
  unfold onFile
  cases x (rest ++ scratch) with
  | error e =>
    constructor
    · intro h
      cases h
    · rintro ⟨t, h, _⟩
      cases h
  | ok p =>
    constructor
    · intro h
      cases h
      exact ⟨p.2, rfl, rfl⟩
    · rintro ⟨t, h, rfl⟩
      cases h
      rfl

theorem turn_eq_some {s t : List Byte} :
    turn s = .ok (some queued, t) ↔ ∃ mpiFunction u, findNextFunction s = .ok (mpiFunction, u) ∧
      mpiFunction < endOfStream ∧ ∃ configMask v dispatched, startRead u = .ok (configMask, v) ∧
        readCase mpiFunction configMask v = .ok (dispatched, t) ∧
        queued = dispatched.queued := by
  unfold turn
  rw [bind_eq_ok]
  constructor
  · rintro ⟨mpiFunction, u, hu, h⟩
    split at h
    · next hlt =>
      obtain ⟨configMask, v, hv, h⟩ := bind_eq_ok.mp h
      obtain ⟨dispatched, w, hw, h⟩ := bind_eq_ok.mp h
      cases h
      exact ⟨mpiFunction, u, hu, hlt, configMask, v, dispatched, hv, hw, rfl⟩
    · cases h
  · rintro ⟨mpiFunction, u, hu, hlt, configMask, v, dispatched, hv, hw, rfl⟩
    refine ⟨mpiFunction, u, hu, ?_⟩
    rw [if_pos hlt]
    exact bind_eq_ok.mpr ⟨configMask, v, hv, bind_eq_ok.mpr ⟨dispatched, t, hw, rfl⟩⟩

theorem starts_of_turn (h : onFile turn scratch rest = .ok (some queued, rest')) : Starts rest := by
  obtain ⟨t, ht, _⟩ := onFile_eq_ok.mp h
  obtain ⟨mpiFunction, u, hu, hlt, _⟩ := turn_eq_some.mp ht
  exact ⟨scratch, mpiFunction, _, onFile_eq_ok.mpr ⟨u, hu, rfl⟩, hlt⟩

namespace Turns

variable {k m n : Nat} {r s t : List Byte}

theorem trans (h : Turns m r s) (h' : Turns n s t) : Turns (m + n) r t := by
  induction h with
  | none =>
    rw [zero_add]
    exact h'
  | more hturn _ ih =>
    rw [Nat.add_right_comm]
    exact more hturn (ih h')

theorem split (h : Turns (m + n) r t) : ∃ s, Turns m r s ∧ Turns n s t := by
  induction m generalizing r with
  | zero =>
    rw [zero_add] at h
    exact ⟨r, none, h⟩
  | succ m ih =>
    rw [Nat.add_right_comm] at h
    cases h with
    | more hturn hrest =>
      obtain ⟨s, hs, ht⟩ := ih hrest
      exact ⟨s, more hturn hs, ht⟩

theorem starts (h : Turns (k + 1) r t) : Starts r := by
  cases h with
  | more hturn _ => exact starts_of_turn hturn

end Turns

theorem exists_scratch (first : List Byte) (scratch : Nat → List Byte) :
    ∃ all : Nat → List Byte, all 0 = first ∧ (fun n => all (n + 1)) = scratch :=
  ⟨fun n => Nat.rec first (fun n _ => scratch n) n, rfl, rfl⟩

/-- The loop has to go on after `fuel` turns exactly when they lead to where it may. -/
theorem recordLoop_eq_none_iff : (∃ scratch, recordLoop scratch fuel rest = none) ↔
      ∃ rest', Turns fuel rest rest' ∧ Starts rest' := by
  induction fuel generalizing rest with
  | zero =>
    constructor
    · rintro ⟨scratch, h⟩
      unfold recordLoop at h
      split at h
      · next mpiFunction left hfind =>
        split at h
        · next hlt => exact ⟨rest, .none, scratch 0, mpiFunction, left, hfind, hlt⟩
        · cases h
      · cases h
    · rintro ⟨rest', hturns, scratch, mpiFunction, left, hfind, hlt⟩
      cases hturns
      refine ⟨fun _ => scratch, ?_⟩
      rw [recordLoop, hfind]
      exact if_pos hlt
  | succ fuel ih =>
    constructor
    · rintro ⟨scratch, h⟩
      unfold recordLoop at h
      split at h
      · next queued next hturn =>
        obtain ⟨rest', hturns, hstarts⟩ := ih.mp ⟨_, Option.map_eq_none_iff.mp h⟩
        exact ⟨rest', .more hturn hturns, hstarts⟩
      · cases h
      · cases h
    · rintro ⟨rest', hturns, hstarts⟩
      cases hturns with
      | @more _ first _ next _ queued hturn hturns =>
        obtain ⟨scratch, h⟩ := ih.mpr ⟨rest', hturns, hstarts⟩
        obtain ⟨all, hzero, hsucc⟩ := exists_scratch first scratch
        refine ⟨all, ?_⟩
        rw [recordLoop, hzero, hturn, hsucc]
        exact Option.map_eq_none_iff.mpr h

theorem not_endsWithin_iff :
    ¬EndsWithin file ↔ ∃ rest, Finds file file.length rest ∧ Starts rest := by
  unfold EndsWithin
  rw [not_forall]
  simp only [Option.not_isSome_iff_eq_none]
  constructor
  · rintro ⟨scratch, h⟩
    unfold parseFile at h
    split at h
    · next rest₀ hheader =>
      obtain ⟨rest, hturns, hstarts⟩ := recordLoop_eq_none_iff.mp ⟨_, h⟩
      exact ⟨rest, ⟨scratch 0, rest₀, hheader, hturns⟩, hstarts⟩
    · cases h
  · rintro ⟨rest, ⟨first, rest₀, hheader, hturns⟩, hstarts⟩
    obtain ⟨scratch, h⟩ := recordLoop_eq_none_iff.mpr ⟨rest, hturns, hstarts⟩
    obtain ⟨all, hzero, hsucc⟩ := exists_scratch first scratch
    refine ⟨all, ?_⟩
    rw [parseFile, hzero, hheader, hsucc]
    exact h

/-! ## 3. Bytes that a turn takes -/

/-- Two bytes of the file are left, or one that is not zero. -/
def Fed (rest : List Byte) : Prop := rest ≠ [] ∧ rest ≠ [0]

theorem length_onFile {x : Trace α} {n : Nat} (hx : Consumes x n) {a : α} (hn : n ≤ rest.length)
    (h : onFile x scratch rest = .ok (a, rest')) : n + rest'.length ≤ rest.length := by
  obtain ⟨t, ht, rfl⟩ := onFile_eq_ok.mp h
  -- what was taken from `scratch` is not counted
  have htaken := hx _ _ ⟨a, ht⟩
  rw [List.length_append] at htaken
  rw [List.length_take]
  omega

theorem consumes_turn : Consumes turn 2 := (consumes_get 2).bind fun _ => Forward.consumes

/-- The first byte of a function code is the more significant one. -/
theorem findNextFunction_cons {b c : Byte} {s t : List Byte}
    (h : findNextFunction (b :: c :: s) = .ok (mpiFunction, t)) :
    mpiFunction.toNat = c.toNat + 256 * b.toNat := by
  have hword : findNextFunction (b :: c :: s) = .ok (ofBytes 2 [c, b], s) := rfl
  rw [hword] at h
  cases h
  have hb := b.isLt
  have hc := c.isLt
  show (BitVec.ofNat 16 (c.toNat + 256 * (b.toNat + 256 * 0))).toNat = _
  rw [BitVec.toNat_ofNat]
  omega

theorem DumpiFunction.code_lt_256 (f : DumpiFunction) : f.code.toNat < 256 := by
  cases f <;> decide

theorem toNat_lt_of_readCase {configMask : BitVec 8} {s t : List Byte} {dispatched : Dispatch}
    (h : readCase mpiFunction configMask s = .ok (dispatched, t)) : mpiFunction.toNat < 256 := by
  unfold readCase at h
  obtain ⟨queued, u, hcase, -⟩ := bind_eq_ok.mp h
  cases hf : DumpiFunction.of? mpiFunction with
  | none =>
    rw [hf] at hcase
    cases hcase
  | some f =>
    rw [← DumpiFunction.code_of?_some hf]
    exact f.code_lt_256

theorem two_le_of_turn (hfed : Fed rest) (h : onFile turn scratch rest = .ok (some queued, rest')) :
    2 ≤ rest.length := by
  obtain ⟨t, ht, -⟩ := onFile_eq_ok.mp h
  obtain ⟨mpiFunction, u, hu, -, configMask, v, dispatched, -, hcase, -⟩ := turn_eq_some.mp ht
  have hcode := toNat_lt_of_readCase hcase
  cases rest with
  | nil => exact absurd rfl hfed.1
  | cons b rest =>
    cases rest with
    | cons _ rest => exact Nat.le_add_left 2 rest.length
    | nil =>
      -- the first byte decides before the memory gives the second
      have hb : b ≠ 0 := fun hb => hfed.2 (by rw [hb])
      cases scratch with
      | nil => cases hu
      | cons c scratch =>
        have hzero : b.toNat = 0 := by
          have := findNextFunction_cons hu
          omega
        exact absurd (BitVec.eq_of_toNat_eq hzero) hb

theorem Turns.length_le {k : Nat} (h : Turns k rest rest') (hfed : ∀ j s, Turns j rest s → Fed s) :
    2 * k + rest'.length ≤ rest.length := by
  induction h with
  | none => rw [Nat.mul_zero, zero_add]
  | more hturn _ ih =>
    have hlen := two_le_of_turn (hfed 0 _ .none) hturn
    have htaken := length_onFile consumes_turn hlen hturn
    have hrest := ih fun j s hs => hfed (j + 1) s (.more hturn hs)
    omega

/-! ## 4. Turns past the end -/

/-- A record of a function without fields. -/
def wtimeRecord : List Byte := 0 :: 122 :: List.replicate 27 0

theorem turn_past_end : onFile turn wtimeRecord [] = .ok (some [.nothing], []) := by
  rfl

theorem turn_last_zero : onFile turn (wtimeRecord.drop 1) [0] = .ok (some [.nothing], []) := by
  rfl

theorem turns_past_end (k : Nat) : Turns k [] [] := by
  induction k with
  | zero => exact .none
  | succ k ih => exact .more turn_past_end ih

theorem Finds.not_endsWithin {k : Nat} (h : Finds file k rest) (hfed : ¬Fed rest) :
    ¬EndsWithin file := by
  obtain ⟨scratch, rest₀, hheader, hturns⟩ := h
  have hout : ∃ n, Turns n rest₀ [] := by
    cases Classical.em (rest = []) with
    | inl hnil => exact ⟨k, hnil ▸ hturns⟩
    | inr hcons =>
      have hzero : rest = [0] := Decidable.not_not.mp fun hne => hfed ⟨hcons, hne⟩
      subst hzero
      exact ⟨k + 1, hturns.trans (.more turn_last_zero .none)⟩
  obtain ⟨n, hn⟩ := hout
  -- as many turns as wanted: the loop starts another one after those that the bound allows
  have hlong := hn.trans (turns_past_end (file.length + 1))
  rw [Nat.add_left_comm] at hlong
  obtain ⟨rest', hfirst, hlast⟩ := hlong.split
  exact not_endsWithin_iff.mpr ⟨rest', ⟨scratch, rest₀, hheader, hfirst⟩, hlast.starts⟩

/-- A trace of one `MPI_Wtime` that is cut off before the end of the stream. -/
def unmarked : List Byte := List.replicate 16 0 ++ wtimeRecord

end MoeJit.Dumpi
