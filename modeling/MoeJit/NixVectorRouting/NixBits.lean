import MoeJit.Network.PacketSections
import MoeJit.Lib.FallibleRun

/-!
# The bits of a nix-vector

`AddNeighborIndex` and `ExtractNeighborIndex` of `nix-vector.cc`. An index is put above the bits
that are there, and taken from the top of the bits that remain. Indices may span two words.

An index that was put in is taken out again, unless the number of bits that remain is a multiple
of 32: then the word at the top is shifted by 32, the number of its bits
(`extractNeighborIndex_of_remain`).
-/

namespace MoeJit.NixVectorRouting

open List
open BitVec (getLsbD_ushiftRight getLsbD_zero toNat toNat_ofNat)

open PacketSerialization (NixVector)

/-! ## 1. Operations -/

inductive Failure
  /-- More than 32 bits at one time. -/
  | tooWide
  | tooManyBits
  /-- A number of bits that is not positive. -/
  | noBits
  | outOfRange
  /-- A shift of a word by 32 or more is undefined. -/
  | shift
  deriving DecidableEq

def shiftLeft (x : BitVec 32) (n : Nat) : Except Failure (BitVec 32) :=
  if n < 32 then .ok (x <<< n) else .error .shift

def shiftRight (x : BitVec 32) (n : Nat) : Except Failure (BitVec 32) :=
  if n < 32 then .ok (x >>> n) else .error .shift

/-- `m_nixVector.at`. -/
def wordAt (nix : NixVector) (i : Nat) : Except Failure (BitVec 32) :=
  match nix.nixVector[i]? with
  | some word => .ok word
  | none => .error .outOfRange

/-- The loop of `BitCount`, over the bits of a word. -/
def bitCountLoop : Nat → Nat → Nat
  | 0, _ => 0
  | fuel + 1, n => if n = 0 then 0 else bitCountLoop fuel (n / 2) + 1

def bitCount (numberOfNeighbors : Nat) : Nat :=
  if numberOfNeighbors < 2 then 1 else bitCountLoop 32 (numberOfNeighbors - 1)

def addNeighborIndex (newBits : BitVec 32) (numberOfBits : Nat) (nix : NixVector) :
    Except Failure NixVector :=
  let currentVectorBitSize := nix.totalBitSize.toNat % 32
  let words := if currentVectorBitSize = 0 then nix.nixVector ++ [0] else nix.nixVector
  let totalBitSize := nix.totalBitSize + BitVec.ofNat 32 numberOfBits
  if 32 < numberOfBits then .error .tooWide
  else do
    -- the last word takes what fits in, whether or not there is more
    let tempBits ← shiftLeft newBits currentVectorBitSize
    let words := words.dropLast ++ [tempBits ||| words.getLastD 0]
    if 32 < currentVectorBitSize + numberOfBits then do
      let newBits ← shiftRight newBits (32 - currentVectorBitSize)
      .ok { nix with nixVector := words ++ [newBits], totalBitSize := totalBitSize }
    else .ok { nix with nixVector := words, totalBitSize := totalBitSize }

def getRemainingBits (nix : NixVector) : BitVec 32 := nix.totalBitSize - nix.used

def extractNeighborIndex (numberOfBits : Nat) (nix : NixVector) :
    Except Failure (BitVec 32 × NixVector) :=
  let totalRemainingBits := (getRemainingBits nix).toNat
  let vectorIndex := (totalRemainingBits - 1) / 32
  let used := { nix with used := nix.used + BitVec.ofNat 32 numberOfBits }
  if 32 < numberOfBits then .error .tooWide
  else if totalRemainingBits < numberOfBits then .error .tooManyBits
  else if numberOfBits = 0 then .error .noBits
  else do
    let word ← wordAt nix vectorIndex
    let extractedBits ← shiftLeft word (32 - totalRemainingBits % 32)
    if 0 < vectorIndex ∧ (totalRemainingBits - 1) % 32 < numberOfBits - 1 then do
      let extractedBits ← shiftRight extractedBits
        (32 - totalRemainingBits % 32 - (numberOfBits - totalRemainingBits % 32))
      let lower ← wordAt nix (vectorIndex - 1)
      let lower ← shiftRight lower (32 - (numberOfBits - totalRemainingBits % 32))
      .ok (extractedBits ||| lower, used)
    else do
      let extractedBits ← shiftRight extractedBits (32 - numberOfBits)
      .ok (extractedBits, used)

/-! ## 2. Widths -/

theorem bitCountLoop_le (fuel n : Nat) : bitCountLoop fuel n ≤ fuel := by
  induction fuel generalizing n with
  | zero => exact Nat.le_refl 0
  | succ fuel ih =>
    rw [bitCountLoop]
    split
    · exact Nat.zero_le _
    · exact Nat.succ_le_succ (ih _)

theorem lt_two_pow_bitCountLoop {fuel n : Nat} (h : n < 2 ^ fuel) :
    n < 2 ^ bitCountLoop fuel n := by
  induction fuel generalizing n with
  | zero => exact h
  | succ fuel ih =>
    rw [bitCountLoop]
    split
    · next hzero => rw [hzero]; exact one_pos
    · have hhalf := ih (show n / 2 < 2 ^ fuel by rw [Nat.pow_succ] at h; omega)
      rw [Nat.pow_succ]
      omega

theorem bitCount_pos (n : Nat) : 0 < bitCount n := by
  rw [bitCount]
  split
  · exact one_pos
  · rw [bitCountLoop, if_neg (by omega)]
    exact Nat.succ_pos _

theorem bitCount_le (n : Nat) : bitCount n ≤ 32 := by
  rw [bitCount]
  split
  · decide
  · exact bitCountLoop_le 32 _

theorem lt_two_pow_bitCount {index n : Nat} (hindex : index < n) (hn : n ≤ 2 ^ 32) :
    index < 2 ^ bitCount n := by
  rw [bitCount]
  split
  · omega
  · have hlt := @lt_two_pow_bitCountLoop 32 (n - 1) (by omega)
    omega

/-! ## 3. Bits -/

/-- The bit at a place of a list of words. -/
def bitAt (words : List (BitVec 32)) (p : Nat) : Bool :=
  (words[p / 32]?.getD 0).getLsbD (p % 32)

/-- Words that hold so many bits, and nothing above. -/
structure Filled (words : List (BitVec 32)) (size : Nat) : Prop where
  length : words.length = (size + 31) / 32
  above : ∀ p, size ≤ p → bitAt words p = false

theorem bitAt_append_singleton (front : List (BitVec 32)) (word : BitVec 32) (p : Nat) :
    bitAt (front ++ [word]) p =
      if p / 32 = front.length then word.getLsbD (p % 32) else bitAt front p := by
  rw [bitAt, bitAt]
  split
  · next heq => rw [heq, getElem?_append_right (le_refl _), Nat.sub_self]; rfl
  · next hne =>
    rcases Nat.lt_or_gt_of_ne hne with hlt | hgt
    · rw [getElem?_append_left hlt]
    · rw [getElem?_eq_none, getElem?_eq_none hgt.le]
      rw [length_append, length_singleton]
      exact hgt

variable {words : List (BitVec 32)} {nix : NixVector} {x : BitVec 32} {width : Nat}
  {hops : List (BitVec 32 × Nat)}

theorem bitAt_of_length_le {p : Nat} (h : words.length ≤ p / 32) : bitAt words p = false := by
  rw [bitAt, getElem?_eq_none h]
  exact getLsbD_zero

/-- Where the next index goes: the word for it, empty or not, is the last. -/
theorem Filled.last {size : Nat} (h : Filled words size) :
    ∃ front last, (if size % 32 = 0 then words ++ [0] else words) = front ++ [last] ∧
      front.length = size / 32 ∧ ∀ p, bitAt (front ++ [last]) p = bitAt words p := by
  split
  · next hzero =>
    have hlen : words.length = size / 32 := by
      rw [h.length]
      omega
    refine ⟨words, 0, rfl, hlen, fun p => ?_⟩
    rw [bitAt_append_singleton]
    split
    · next heq => rw [bitAt_of_length_le heq.ge]; exact getLsbD_zero
    · rfl
  · next hpos =>
    have hlen := h.length
    rcases eq_nil_or_concat words with rfl | ⟨front, last, rfl⟩
    · rw [length_nil] at hlen
      omega
    · rw [concat_eq_append, length_append, length_singleton] at hlen
      refine ⟨front, last, concat_eq_append, by omega, fun p => ?_⟩
      rw [concat_eq_append]

/-! ## 4. Indices are put in and taken out -/

theorem addNeighborIndex_spec {size : Nat} (hsize : nix.totalBitSize.toNat = size)
    (hfilled : Filled nix.nixVector size) (hx : x.toNat < 2 ^ width) (hpos : 0 < width)
    (hwidth : width ≤ 32) :
    ∃ words, addNeighborIndex x width nix = .ok { nix with
        nixVector := words, totalBitSize := nix.totalBitSize + BitVec.ofNat 32 width } ∧
      Filled words (size + width) ∧
      ∀ p, bitAt words p = if p < size then bitAt nix.nixVector p else x.getLsbD (p - size) := by
  obtain ⟨front, last, hpushed, hfront, hsame⟩ := hfilled.last
  have hr : size % 32 < 32 := Nat.mod_lt _ (by decide)
  have hshort : ∀ j, width ≤ j → x.getLsbD j = false := fun j hj =>
    Nat.testBit_lt_two_pow (hx.trans_le (Nat.pow_le_pow_right (by decide) hj))
  have hadd : addNeighborIndex x width nix = .ok { nix with
      nixVector := front ++ [x <<< (size % 32) ||| last] ++
        if 32 < size % 32 + width then [x >>> (32 - size % 32)] else []
      totalBitSize := nix.totalBitSize + BitVec.ofNat 32 width } := by
    simp only [addNeighborIndex, hsize, hpushed, shiftLeft, if_pos hr,
      if_neg (not_lt.mpr hwidth), dropLast_concat, getLastD_concat]
    split
    · next hmore =>
      have hfit : 32 - size % 32 < 32 := by omega
      rw [shiftRight, if_pos hfit]
      rfl
    · rw [append_nil]
      rfl
  have hsize' := Nat.div_add_mod size 32
  -- the last word, with the low bits of the index
  have hlast : ∀ p, p / 32 = size / 32 → (x <<< (size % 32) ||| last).getLsbD (p % 32) =
      if p < size then bitAt nix.nixVector p else x.getLsbD (p - size) := by
    intro p hp
    have hold := hsame p
    rw [bitAt_append_singleton, if_pos (hp.trans hfront.symm)] at hold
    have hp' := Nat.div_add_mod p 32
    have hmod : p % 32 < 32 := Nat.mod_lt _ (by decide)
    rw [BitVec.getLsbD_or, BitVec.getLsbD_shiftLeft, hold, decide_eq_true hmod, Bool.true_and]
    split
    · next hlow =>
      have hless : p % 32 < size % 32 := by omega
      rw [decide_eq_true hless, Bool.not_true, Bool.false_and, Bool.false_or]
    · next hhigh =>
      have hless : ¬ p % 32 < size % 32 := by omega
      have hdiff : p % 32 - size % 32 = p - size := by omega
      rw [decide_eq_false hless, Bool.not_false, Bool.true_and, hdiff,
        hfilled.above p (not_lt.mp hhigh), Bool.or_false]
  have hbits : ∀ p, bitAt (front ++ [x <<< (size % 32) ||| last] ++
      if 32 < size % 32 + width then [x >>> (32 - size % 32)] else []) p =
        if p < size then bitAt nix.nixVector p else x.getLsbD (p - size) := by
    intro p
    have hp' := Nat.div_add_mod p 32
    have hmod : p % 32 < 32 := Nat.mod_lt _ (by decide)
    have hother : p / 32 ≠ size / 32 → bitAt front p = bitAt nix.nixVector p := by
      intro hne
      rw [← hsame, bitAt_append_singleton, if_neg (hfront.symm ▸ hne)]
    split
    · next hmore =>
      rw [bitAt_append_singleton, bitAt_append_singleton, length_append, length_singleton, hfront]
      split
      · next hnext =>
        have hge : ¬ p < size := by omega
        have hdiff : 32 - size % 32 + p % 32 = p - size := by omega
        rw [getLsbD_ushiftRight, hdiff, if_neg hge]
      · next hnext =>
        split
        · next heq => exact hlast p heq
        · next hne =>
          rw [hother hne]
          split
          · rfl
          · next hge =>
            rw [hfilled.above p (not_lt.mp hge), hshort _ (by omega)]
    · next hfits =>
      rw [append_nil, bitAt_append_singleton, hfront]
      split
      · next heq => exact hlast p heq
      · next hne =>
        rw [hother hne]
        split
        · rfl
        · next hge =>
          rw [hfilled.above p (not_lt.mp hge), hshort _ (by omega)]
  refine ⟨_, hadd, ⟨?_, fun p hp => ?_⟩, hbits⟩
  · rw [length_append, length_append, length_singleton, hfront]
    split
    · rw [length_singleton]
      omega
    · rw [length_nil]
      omega
  · rw [hbits, if_neg (by omega), hshort _ (by omega)]

/-! ## 5. Indices that were put in one after the other -/

/-- The bits of some indices with their widths. -/
def bits (hops : List (BitVec 32 × Nat)) : Nat := (hops.map Prod.snd).sum

@[simp] theorem bits_cons (hop : BitVec 32 × Nat) (hops : List (BitVec 32 × Nat)) :
    bits (hop :: hops) = hop.2 + bits hops := sum_cons

/-- The words hold these indices, the first on top. -/
def Encoded (words : List (BitVec 32)) : List (BitVec 32 × Nat) → Prop
  | [] => True
  | (x, width) :: hops =>
    (∀ j < width, bitAt words (bits hops + j) = x.getLsbD j) ∧ Encoded words hops

/-- The indices that remain in a nix-vector. -/
structure Remain (nix : NixVector) (hops : List (BitVec 32 × Nat)) : Prop where
  remaining : (getRemainingBits nix).toNat = bits hops
  length : (bits hops + 31) / 32 ≤ nix.nixVector.length
  encoded : Encoded nix.nixVector hops

/-- A nix-vector that holds these indices, of which none was taken out. -/
structure Built (nix : NixVector) (hops : List (BitVec 32 × Nat)) : Prop where
  used : nix.used = 0
  size : nix.totalBitSize.toNat = bits hops
  filled : Filled nix.nixVector (bits hops)
  encoded : Encoded nix.nixVector hops

theorem built_nil : Built {} [] where
  used := rfl
  size := rfl
  filled := ⟨rfl, fun _ _ => bitAt_of_length_le (Nat.zero_le _)⟩
  encoded := trivial

theorem Built.remain (h : Built nix hops) : Remain nix hops where
  remaining := by
    rw [getRemainingBits, h.used, ← h.size]
    exact congrArg toNat (BitVec.sub_zero _)
  length := h.filled.length.ge
  encoded := h.encoded

theorem Encoded.congr {words' : List (BitVec 32)} (h : Encoded words hops)
    (hsame : ∀ p < bits hops, bitAt words' p = bitAt words p) : Encoded words' hops := by
  induction hops with
  | nil => trivial
  | cons hop hops ih =>
    rw [bits_cons] at hsame
    refine ⟨fun j hj => ?_, ih h.2 fun p hp => hsame p (hp.trans_le (Nat.le_add_left _ _))⟩
    rw [hsame _ (by omega)]
    exact h.1 j hj

theorem Built.add (h : Built nix hops) (hx : x.toNat < 2 ^ width) (hpos : 0 < width)
    (hwidth : width ≤ 32) (hbits : bits ((x, width) :: hops) < 2 ^ 32) :
    ∃ nix', addNeighborIndex x width nix = .ok nix' ∧ Built nix' ((x, width) :: hops) := by
  obtain ⟨words, hadd, hfilled, hplaces⟩ := addNeighborIndex_spec h.size h.filled hx hpos hwidth
  rw [Nat.add_comm] at hfilled
  refine ⟨_, hadd, h.used, ?_, hfilled, fun j hj => ?_, h.encoded.congr fun p hp => ?_⟩
  · have hwide : width % 2 ^ 32 = width := Nat.mod_eq_of_lt (hwidth.trans_lt (by decide))
    rw [bits_cons, Nat.add_comm] at hbits
    rw [bits_cons, BitVec.toNat_add, h.size, toNat_ofNat, hwide, Nat.add_comm width,
      Nat.mod_eq_of_lt hbits]
  · rw [hplaces, if_neg (Nat.not_lt.mpr (Nat.le_add_right _ j)), Nat.add_sub_cancel_left]
  · rw [hplaces, if_pos hp]

theorem wordAt_of_lt {nix : NixVector} {i : Nat} (h : i < nix.nixVector.length) :
    ∃ word, wordAt nix i = .ok word ∧
      ∀ j < 32, bitAt nix.nixVector (32 * i + j) = word.getLsbD j := by
  refine ⟨nix.nixVector[i], ?_, fun j hj => ?_⟩
  · rw [wordAt, getElem?_eq_getElem h]
  · rw [bitAt, Nat.mul_add_div (by decide), Nat.div_eq_of_lt hj, add_zero, Nat.mul_add_mod,
      Nat.mod_eq_of_lt hj, getElem?_eq_getElem h, Option.getD_some]

theorem getLsbD_window (word : BitVec 32) {high : Nat} (hle : width ≤ high) (hhigh : high ≤ 32)
    (j : Nat) : (word <<< (32 - high) >>> (32 - width)).getLsbD j =
      (decide (j < width) && word.getLsbD (high - width + j)) := by
  rw [getLsbD_ushiftRight, BitVec.getLsbD_shiftLeft]
  by_cases hj : j < width
  · have hin : 32 - width + j < 32 := by omega
    have hnot : ¬ 32 - width + j < 32 - high := by omega
    have hdiff : 32 - width + j - (32 - high) = high - width + j := by omega
    rw [decide_eq_true hin, decide_eq_false hnot, hdiff, decide_eq_true hj, Bool.not_false,
      Bool.true_and]
  · have hout : ¬ 32 - width + j < 32 := by omega
    rw [decide_eq_false hout, decide_eq_false hj, Bool.false_and, Bool.false_and, Bool.false_and]

theorem extractNeighborIndex_of_remain (h : Remain nix ((x, width) :: hops))
    (hx : x.toNat < 2 ^ width) (hpos : 0 < width) (hwidth : width ≤ 32)
    (hbits : bits ((x, width) :: hops) % 32 ≠ 0) :
    extractNeighborIndex width nix =
        .ok (x, { nix with used := nix.used + BitVec.ofNat 32 width }) ∧
      Remain { nix with used := nix.used + BitVec.ofNat 32 width } hops := by
  obtain ⟨hremaining, hlen, hencoded, hrest⟩ := h
  rw [bits_cons] at hremaining hlen hbits
  simp only at hremaining hlen hbits
  have hshort : ∀ j, width ≤ j → x.getLsbD j = false := fun j hj =>
    Nat.testBit_lt_two_pow (hx.trans_le (Nat.pow_le_pow_right (by decide) hj))
  obtain ⟨word, hword, hwordbits⟩ := @wordAt_of_lt nix ((width + bits hops - 1) / 32) (by omega)
  have hr : 32 - (width + bits hops) % 32 < 32 := by omega
  have hdiv := Nat.div_add_mod (width + bits hops) 32
  have hmod : (width + bits hops) % 32 < 32 := Nat.mod_lt _ (by decide)
  have htop : (width + bits hops - 1) / 32 = (width + bits hops) / 32 := by omega
  constructor
  · simp only [extractNeighborIndex, hremaining, if_neg (Nat.not_lt.mpr hwidth),
      if_neg (Nat.not_lt.mpr (Nat.le_add_right width (bits hops))), if_neg hpos.ne', hword,
      except_ok_bind, shiftLeft, if_pos hr]
    split
    · next hspan =>
      -- the rest of the index is the upper part of the word below
      have hless : (width + bits hops) % 32 < width := by omega
      have hfit : 32 - (width + bits hops) % 32 - (width - (width + bits hops) % 32) =
          32 - width := by omega
      have hwidth' : 32 - width < 32 := by omega
      have hlow : 32 - (width - (width + bits hops) % 32) < 32 := by omega
      obtain ⟨lower, hlower, hlowerbits⟩ :=
        @wordAt_of_lt nix ((width + bits hops - 1) / 32 - 1) (by omega)
      rw [hfit, hlower]
      simp only [shiftRight, if_pos hwidth', if_pos hlow, except_ok_bind]
      refine congrArg (fun x => Except.ok (x, _)) (BitVec.eq_of_getLsbD_eq fun j hj => ?_)
      rw [BitVec.getLsbD_or, getLsbD_ushiftRight, getLsbD_ushiftRight, BitVec.getLsbD_shiftLeft]
      by_cases hin : j < width
      · have hin' : 32 - width + j < 32 := by omega
        rw [← hencoded j hin, decide_eq_true hin', Bool.true_and]
        by_cases hupper : width - (width + bits hops) % 32 ≤ j
        · have hnot : ¬ 32 - width + j < 32 - (width + bits hops) % 32 := by omega
          have hplace : bits hops + j = 32 * ((width + bits hops - 1) / 32) +
              (32 - width + j - (32 - (width + bits hops) % 32)) := by omega
          rw [decide_eq_false hnot, Bool.not_false, Bool.true_and, hplace, hwordbits _ (by omega),
            BitVec.getLsbD_of_ge lower _ (by omega), Bool.or_false]
        · have hbelow : 32 - width + j < 32 - (width + bits hops) % 32 := by omega
          have hplace : bits hops + j = 32 * ((width + bits hops - 1) / 32 - 1) +
              (32 - (width - (width + bits hops) % 32) + j) := by omega
          rw [decide_eq_true hbelow, Bool.not_true, Bool.false_and, Bool.false_or, hplace,
            hlowerbits _ (by omega)]
      · have hout : ¬ 32 - width + j < 32 := by omega
        rw [hshort j (Nat.not_lt.mp hin), decide_eq_false hout, Bool.false_and, Bool.false_and,
          BitVec.getLsbD_of_ge lower _ (by omega), Bool.or_false]
    · next hone =>
      have hle : width ≤ (width + bits hops) % 32 := by omega
      have hfit : 32 - width < 32 := by omega
      rw [shiftRight, if_pos hfit, except_ok_bind]
      refine congrArg (fun x => Except.ok (x, _)) (BitVec.eq_of_getLsbD_eq fun j hj => ?_)
      rw [getLsbD_window word hle hmod.le]
      by_cases hin : j < width
      · have hplace : bits hops + j = 32 * ((width + bits hops - 1) / 32) +
            ((width + bits hops) % 32 - width + j) := by omega
        rw [decide_eq_true hin, Bool.true_and, ← hencoded j hin, hplace, hwordbits _ (by omega)]
      · rw [decide_eq_false hin, Bool.false_and, hshort j (Nat.not_lt.mp hin)]
  · refine ⟨?_, ?_, hrest⟩
    · have hle : (BitVec.ofNat 32 width).toNat ≤ (getRemainingBits nix).toNat := by
        rw [hremaining, toNat_ofNat]
        omega
      have hwide : width % 2 ^ 32 = width := Nat.mod_eq_of_lt (hwidth.trans_lt (by decide))
      rw [toNat_ofNat, hwide] at hle
      show (nix.totalBitSize - (nix.used + BitVec.ofNat 32 width)).toNat = _
      rw [← BitVec.sub_sub, show nix.totalBitSize - nix.used = getRemainingBits nix from rfl,
        BitVec.toNat_sub_of_le (by rw [BitVec.le_def, toNat_ofNat, hwide]; exact hle),
        toNat_ofNat, hwide, hremaining, Nat.add_sub_cancel_left]
    · exact (Nat.div_le_div_right (by omega)).trans hlen

end MoeJit.NixVectorRouting
