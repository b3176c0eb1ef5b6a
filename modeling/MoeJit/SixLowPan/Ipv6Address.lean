import Mathlib.Data.Fin.VecNotation
import MoeJit.Lib.Bytes

/-!
# IPv6 addresses and prefixes

A prefix has sixteen bytes and a length, and no bit after its length is set. `HasPrefix` takes the
bytes for a mask: it asks whether the address has the bits that are set in the prefix, not whether it
begins with the prefix (`Begins`).
-/

namespace MoeJit.SixLowPan

open Bytes

/-! ## 1. Model -/

-- the sizes of the addresses whose bytes are numbered

instance neZero16 : NeZero 16 := ⟨by decide⟩

instance neZero8 : NeZero 8 := ⟨by decide⟩

instance neZero6 : NeZero 6 := ⟨by decide⟩

instance neZero2 : NeZero 2 := ⟨by decide⟩

abbrev Ipv6Address := Fin 16 → Byte

/-- The bits of a byte that come after the first `length` bits of an address. -/
def hostMask (length : Nat) (i : Fin 16) : Byte :=
  if i.val < length / 8 then 0#8
  else if i.val = length / 8 then (1#8 <<< (8 - length % 8)) - 1
  else BitVec.allOnes 8

/-- A prefix whose bytes fit its length, as its constructors check. -/
structure Ipv6Prefix where
  bytes : Ipv6Address
  length : Nat
  length_le : length ≤ 128
  compatible : ∀ i, bytes i &&& hostMask length i = 0

/-- A link-layer address, of which there are four kinds. -/
inductive MacAddress
  | mac64 (bytes : Fin 8 → Byte)
  | mac48 (bytes : Fin 6 → Byte)
  | mac16 (bytes : Fin 2 → Byte)
  | mac8 (byte : Byte)

namespace Ipv6Address

/-- `::`. -/
def any : Ipv6Address := fun _ => 0

def ones : Ipv6Address := fun _ => BitVec.allOnes 8

def combinePrefix (a : Ipv6Address) (p : Ipv6Prefix) : Ipv6Address := fun i => a i &&& p.bytes i

def HasPrefix (a : Ipv6Address) (p : Ipv6Prefix) : Prop := a.combinePrefix p = ones.combinePrefix p

instance (a : Ipv6Address) (p : Ipv6Prefix) : Decidable (a.HasPrefix p) :=
  inferInstanceAs (Decidable (_ = _))

/-- The first eight bytes of `fe80::`. -/
def linkLocalByte (i : Fin 16) : Byte := if i.val = 0 then 0xfe else if i.val = 1 then 0x80 else 0

def IsLinkLocal (a : Ipv6Address) : Prop := ∀ i : Fin 16, i.val < 8 → a i = linkLocalByte i

instance (a : Ipv6Address) : Decidable a.IsLinkLocal :=
  inferInstanceAs (Decidable (∀ i : Fin 16, i.val < 8 → a i = linkLocalByte i))

def IsMulticast (a : Ipv6Address) : Prop := a 0 = 0xff

instance (a : Ipv6Address) : Decidable a.IsMulticast :=
  inferInstanceAs (Decidable (a 0 = 0xff))

/-- The last eight bytes of the addresses that are made of a link-layer address. -/
def interfaceId : MacAddress → Fin 8 → Byte
  | .mac64 b => b
  | .mac48 b => ![b 0 ^^^ 0x02, b 1, b 2, 0xff, 0xfe, b 3, b 4, b 5]
  | .mac16 b => ![0, 0, 0, 0xff, 0xfe, 0, b 0, b 1]
  | .mac8 b => ![0, 0, 0, 0xff, 0xfe, 0, 0, b]

/-- Eight bytes, and then those made of the link-layer address. -/
def autoconfigured (front : Ipv6Address) (mac : MacAddress) : Ipv6Address := fun i =>
  if i.val < 8 then front i else interfaceId mac (Fin.ofNat 8 (i.val - 8))

/-- There is no result when it would be `::`. -/
def makeAutoconfiguredAddress (mac : MacAddress) (p : Ipv6Prefix) : Option Ipv6Address :=
  if autoconfigured p.bytes mac = any then none else some (autoconfigured p.bytes mac)

def makeAutoconfiguredLinkLocalAddress (mac : MacAddress) : Ipv6Address :=
  autoconfigured linkLocalByte mac

/-- Some bytes of an address as they are serialized. -/
def part (a : Ipv6Address) (start count : Nat) : List Byte :=
  ((List.ofFn a).drop start).take count

/-- Bytes copied into an address of zeros. -/
def ofPart (start : Nat) (l : List Byte) : Ipv6Address := fun i =>
  if start ≤ i.val then l.getD (i.val - start) 0 else 0

end Ipv6Address

/-! ## 2. Masks -/

theorem eq_masked_iff {x p b m : Byte} :
    (p &&& ~~~m) ||| (b &&& m) = x ↔ x &&& ~~~m = p &&& ~~~m ∧ x &&& m = b &&& m := by
  constructor
  · rintro rfl
    constructor <;> ext i hi <;> simp <;> cases m[i] <;> simp
  · rintro ⟨hfront, hback⟩
    rw [← hfront, ← hback]
    ext i hi
    simp
    cases m[i] <;> simp

theorem and_not_hostMask (p : Ipv6Prefix) (i : Fin 16) :
    p.bytes i &&& ~~~hostMask p.length i = p.bytes i := by
  have h := p.compatible i
  ext j hj
  have hclear : (p.bytes i &&& hostMask p.length i)[j] = false := by
    rw [h]
    exact BitVec.getElem_zero hj
  rw [BitVec.getElem_and] at hclear
  rw [BitVec.getElem_and, BitVec.getElem_not]
  cases hbit : (p.bytes i)[j] with
  | false => rfl
  | true =>
    rw [hbit, Bool.true_and] at hclear
    rw [hclear]
    rfl

namespace Ipv6Address

/-- The address begins with the prefix. -/
def Begins (a : Ipv6Address) (p : Ipv6Prefix) : Prop :=
  ∀ i, a i &&& ~~~hostMask p.length i = p.bytes i

instance (a : Ipv6Address) (p : Ipv6Prefix) : Decidable (a.Begins p) :=
  inferInstanceAs (Decidable (∀ i, a i &&& ~~~hostMask p.length i = p.bytes i))

/-! ## 3. Parts of addresses -/

theorem getD_part (a : Ipv6Address) {start count j : Nat} (hj : j < count) (hend : start + j < 16) :
    (a.part start count).getD j 0 = a ⟨start + j, hend⟩ := by
  have hlen : j < (a.part start count).length := by
    rw [part, List.length_take, List.length_drop, List.length_ofFn]
    exact lt_min hj (by omega)
  rw [List.getD_eq_getElem?_getD, List.getElem?_eq_getElem hlen]
  simp only [part, List.getElem_take, List.getElem_drop, List.getElem_ofFn, Option.getD_some]

theorem length_part (a : Ipv6Address) {start count : Nat} (h : start + count ≤ 16) :
    (a.part start count).length = count := by
  rw [part, List.length_take, List.length_drop, List.length_ofFn]
  omega

theorem ofPart_part (a : Ipv6Address) {start count : Nat} {i : Fin 16} (hi : start ≤ i.val)
    (hlt : i.val < start + count) : ofPart start (a.part start count) i = a i := by
  have hend : start + (i.val - start) < 16 := by omega
  rw [ofPart, if_pos hi, getD_part a (by omega) hend]
  exact congrArg a (Fin.ext (Nat.add_sub_cancel' hi))

theorem ofPart_of_lt {start : Nat} {l : List Byte} {i : Fin 16} (hi : i.val < start) :
    ofPart start l i = 0 := by
  rw [ofPart, if_neg (Nat.not_le.mpr hi)]

end Ipv6Address

end MoeJit.SixLowPan
