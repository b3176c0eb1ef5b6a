import MoeJit.Lib.SizedWriter

/-!
# Lists that are read up to a size

The items of a list are read one after the other, while fewer bytes have been read than the size of
the list says (`upTo`). They are read back as long as the size is more than that of all items but the
last one (`loads_upTo`), and only then (`good_of_upTo`).

An item is `Good` when what is read of it is what was written. When the items of a list are read
back, each of them is good, as the ones before it leave the reader at its first byte.
-/

namespace SizedReader

open Bytes ByteReader SizedWriter List

variable {ε α β : Type}

/-- The next byte. -/
def byte [EndOfInput ε] : Reader ε Byte
  | [] => .error EndOfInput.endOfInput
  | b :: s => .ok (b, s)

theorem reads_byte [EndOfInput ε] (b : Byte) : Reads (byte : Reader ε Byte) [b] b := fun _ => rfl

theorem consumes_byte [EndOfInput ε] : Consumes (byte : Reader ε Byte) 1 := by
  rintro s t ⟨b, h⟩
  cases s with
  | nil => cases h
  | cons b' s =>
    cases h
    exact (add_comm 1 _).le

variable {x : Reader ε α} {l : List β} {size : Nat} {r : List α} {w : β → Image}

theorem loads_of_reads {bytes : List Byte} {a : α} (hx : Reads x bytes a) :
    Loads x (block bytes) a := by
  intro memory h
  rwa [fills_block h]

theorem reads_of_loads {bytes : List Byte} {a : α} (hx : Loads x (block bytes) a) :
    Reads x bytes a := hx bytes (fills_block_self bytes)

/-- A read that is made on a condition. -/
def readIf (c : Bool) (x : Reader ε α) : Reader ε (Option α) :=
  if c then (do let a ← x; return some a) else pure none

theorem reads_readIf (write : α → List Byte) {o : Option α} (hx : ∀ a ∈ o, Reads x (write a) a) :
    Reads (readIf o.isSome x) (o.toList.flatMap write) o := by
  cases o with
  | none => exact reads_pure none
  | some a =>
    rw [Option.toList_some, flatMap_singleton]
    exact (hx a rfl).map

theorem consumes_readIf (c : Bool) (hx : Consumes x 0) : Consumes (readIf c x) 0 := by
  cases c with
  | false => exact consumes_pure none
  | true => exact hx.bind fun _ => consumes_pure _

theorem reads_many (write : β → List Byte) (back : β → α) (hx : ∀ b ∈ l, Reads x (write b) (back b))
    : Reads (many x l.length) (l.flatMap write) (l.map back) := by
  induction l with
  | nil => exact reads_pure []
  | cons b l ih =>
    rw [flatMap_cons]
    exact (hx b mem_cons_self).bind (ih fun b' hb' => hx b' (mem_cons_of_mem b hb')).map

variable {s t memory : List Byte} {rounds : Nat}

theorem length_of_many {n : Nat} {l : List α} (h : many x n s = .ok (l, t)) : l.length = n := by
  induction n generalizing s l with
  | zero =>
    cases h
    rfl
  | succ n ih =>
    obtain ⟨a, u, -, h⟩ := bind_eq_ok.mp h
    obtain ⟨as, u', has, h⟩ := bind_eq_ok.mp h
    cases h
    exact congrArg Nat.succ (ih has)

/-- Reads items while fewer than `size` bytes have been read. As every item has a byte or more, there
are no more than `rounds` of them when that is the size. -/
def upTo (x : Reader ε α) : Nat → Nat → Reader ε (List α)
  | 0, _ => pure []
  | rounds + 1, size => fun s =>
    if size = 0 then .ok ([], s)
    else
      match x s with
      | .error e => .error e
      | .ok (a, t) =>
        match upTo x rounds (size - (s.length - t.length)) t with
        | .error e => .error e
        | .ok (as, u) => .ok (a :: as, u)

theorem upTo_zero (x : Reader ε α) (rounds : Nat) (s : List Byte) :
    upTo x rounds 0 s = .ok ([], s) := by
  cases rounds with
  | zero => rfl
  | succ rounds => rfl

/-- What holds of all items that are read holds of those of a list. -/
theorem forall_of_upTo {P : α → Prop} (hx : ∀ s a t, x s = .ok (a, t) → P a)
    (h : upTo x rounds size s = .ok (r, t)) : ∀ a ∈ r, P a := by
  induction rounds generalizing size s r with
  | zero =>
    cases h
    exact fun a ha => absurd ha not_mem_nil
  | succ rounds ih =>
    rw [upTo] at h
    simp only at h
    split at h
    · cases h
      exact fun a ha => absurd ha not_mem_nil
    · split at h
      · cases h
      · next a u hread =>
        split at h
        · cases h
        · next as v hrest =>
          cases h
          intro a' ha'
          rcases mem_cons.mp ha' with rfl | ha'
          · exact hx s a' u hread
          · exact ih hrest a' ha'

/-- The size is more than that of all items but the last one. -/
def Reaches (w : β → Image) (l : List β) (size : Nat) : Prop :=
  ∀ init last, l = init ++ [last] → (init.flatMap w).length < size

section Reaches

variable {w : β → Image} {b : β} {l : List β} {size : Nat}

theorem reaches_nil (w : β → Image) (size : Nat) : Reaches w [] size := by
  intro init last h
  exact absurd h.symm (append_ne_nil_of_right_ne_nil init (cons_ne_nil last []))

theorem reaches_singleton : Reaches w [b] size ↔ 0 < size := by
  constructor
  · exact fun h => h [] b rfl
  · intro hsize init last h
    have hinit : init = [] := by
      have hlen := congrArg List.length h
      rw [length_append] at hlen
      exact eq_nil_of_length_eq_zero (Nat.succ.inj hlen).symm
    rw [hinit]
    exact hsize

theorem reaches_cons {c : β} : Reaches w (b :: c :: l) size ↔
    (w b).length < size ∧ Reaches w (c :: l) (size - (w b).length) := by
  constructor
  · intro h
    have hrest : Reaches w (c :: l) (size - (w b).length) := by
      intro init last hl
      have hlt := h (b :: init) last (by rw [hl]; rfl)
      rw [flatMap_cons, length_append] at hlt
      omega
    refine ⟨?_, hrest⟩
    have hlast := hrest ((c :: l).dropLast) ((c :: l).getLast (cons_ne_nil c l))
      (dropLast_append_getLast _).symm
    omega
  · rintro ⟨hb, h⟩ init last hl
    cases init with
    | nil =>
      rw [nil_append] at hl
      exact absurd (congrArg List.length hl) (by simp)
    | cons b' init =>
      obtain ⟨rfl, htail⟩ := List.cons.inj hl
      have hlt := h init last htail
      rw [flatMap_cons, length_append]
      omega

theorem Reaches.pos (h : Reaches w (b :: l) size) : 0 < size := by
  cases l with
  | nil => exact reaches_singleton.mp h
  | cons c l => exact (w b).length.zero_le.trans_lt (reaches_cons.mp h).1

theorem Reaches.tail (h : Reaches w (b :: l) size) : Reaches w l (size - (w b).length) := by
  cases l with
  | nil => exact reaches_nil w _
  | cons c l => exact (reaches_cons.mp h).2

/-- A size that is no more than the next one of the list reaches the last item. -/
theorem reaches_of_eq (hpos : ∀ b ∈ l, 0 < (w b).length) (hsize : size = (l.flatMap w).length) :
    Reaches w l size := by
  rintro init last rfl
  have hlast := hpos last (mem_append_right init mem_cons_self)
  rw [hsize, flatMap_append, flatMap_singleton, length_append]
  omega

theorem length_le_length_flatMap (hpos : ∀ b ∈ l, 0 < (w b).length) :
    l.length ≤ (l.flatMap w).length := by
  induction l with
  | nil => exact Nat.zero_le _
  | cons b l ih =>
    have hb := hpos b mem_cons_self
    have hl := ih fun b' hb' => hpos b' (mem_cons_of_mem b hb')
    rw [flatMap_cons, length_append, length_cons]
    omega

end Reaches

theorem loads_upTo {back : β → α} (hx : ∀ b ∈ l, Loads x (w b) (back b))
    (hreaches : Reaches w l size) (hsize : size ≤ (l.flatMap w).length)
    (hrounds : l.length ≤ rounds) : Loads (upTo x rounds size) (l.flatMap w) (l.map back) := by
  induction l generalizing rounds size with
  | nil =>
    intro memory h s
    cases h
    rw [Nat.le_zero.mp hsize]
    exact upTo_zero x rounds s
  | cons b l ih =>
    intro memory h s
    obtain ⟨m, m', rfl, hm, hm'⟩ := fills_append h
    cases rounds with
    | zero => exact absurd hrounds (Nat.not_succ_le_zero _)
    | succ rounds =>
      rw [flatMap_cons, length_append] at hsize
      have hread := hx b mem_cons_self m hm (m' ++ s)
      have hrest := ih (fun b' hb' => hx b' (mem_cons_of_mem b hb')) hreaches.tail (by omega)
        (Nat.le_of_succ_le_succ hrounds) m' hm' s
      have hleft : (m ++ (m' ++ s)).length - (m' ++ s).length = (w b).length := by
        rw [length_append, Nat.add_sub_cancel, hm.length_eq]
      rw [append_assoc, upTo]
      simp only [hreaches.pos.ne', if_false, hread, hleft, hrest]
      rfl

/-- What is read back was good, and the size reaches the last item. -/
theorem good_of_upTo (back : β → α) {E : α → β → Prop} (Good : β → Prop)
    (hgood : ∀ b ∈ l, Good b → Loads x (w b) (back b))
    (honly : ∀ b ∈ l, ∀ memory s a t, Fills (w b) memory → x (memory ++ s) = .ok (a, t) → E a b →
      Good b) (hfills : Fills (l.flatMap w) memory)
    (h : upTo x rounds size (memory ++ s) = .ok (r, t)) (hE : List.Forall₂ E r l) :
    (∀ b ∈ l, Good b) ∧ Reaches w l size := by
  induction l generalizing rounds size memory r with
  | nil => exact ⟨fun b hb => absurd hb not_mem_nil, reaches_nil w size⟩
  | cons b l ih =>
    obtain ⟨a, r, hab, hr, rfl⟩ := forall₂_cons_right_iff.mp hE
    obtain ⟨m, m', rfl, hm, hm'⟩ := fills_append hfills
    cases rounds with
    | zero => cases h
    | succ rounds =>
      rw [append_assoc, upTo] at h
      simp only at h
      split at h
      · cases h
      · next hne =>
        split at h
        · cases h
        · next a' t' hread =>
          split at h
          · cases h
          · next as u hrest =>
            cases h
            have hb := honly b mem_cons_self m (m' ++ s) a t' hm hread hab
            have hexact := hgood b mem_cons_self hb m hm (m' ++ s)
            rw [hread] at hexact
            cases hexact
            have hleft : (m ++ (m' ++ s)).length - (m' ++ s).length = (w b).length := by
              rw [length_append, Nat.add_sub_cancel, hm.length_eq]
            rw [hleft] at hrest
            obtain ⟨hall, hreaches⟩ := ih (fun b' hb' => hgood b' (mem_cons_of_mem b hb'))
              (fun b' hb' => honly b' (mem_cons_of_mem b hb')) hm' hrest hr
            refine ⟨fun b' hb' => ?_, ?_⟩
            · rcases mem_cons.mp hb' with rfl | hb'
              · exact hb
              · exact hall b' hb'
            · cases l with
              | nil => exact reaches_singleton.mpr (pos_of_ne_zero hne)
              | cons c l =>
                refine reaches_cons.mpr ⟨?_, hreaches⟩
                have := hreaches.pos
                omega

/-! ## Up to the end of the input -/

/-- Reads, and says of how many bytes. -/
def measured (x : Reader ε α) : Reader ε (α × Nat) := fun s => do
  let r ← x s
  return ((r.1, s.length - r.2.length), r.2)

theorem loads_measured {w : Image} {a : α} (hx : Loads x w a) :
    Loads (measured x) w (a, w.length) := by
  intro memory h s
  rw [measured, hx memory h s, ← h.length_eq]
  have hleft : (memory ++ s).length - s.length = memory.length := by
    rw [length_append, Nat.add_sub_cancel]
  show Except.ok ((a, (memory ++ s).length - s.length), s) = _
  rw [hleft]

theorem of_measured {r : α × Nat} (h : measured x s = .ok (r, t)) : x s = .ok (r.1, t) := by
  unfold measured at h
  cases hx : x s with
  | error e =>
    rw [hx] at h
    cases h
  | ok p =>
    rw [hx] at h
    cases h
    rfl

/-- Reads items up to the end of the input, or up to one that is none: whether the end has been
reached is returned. With an item of a byte or more, there are no more rounds than bytes. -/
def untilEnd (x : Reader ε (Option α)) : Nat → Reader ε (List α × Bool)
  | 0 => pure ([], true)
  | rounds + 1 => fun s =>
    if s = [] then .ok (([], true), s)
    else
      match x s with
      | .error e => .error e
      | .ok (none, t) => .ok (([], false), t)
      | .ok (some a, t) =>
        match untilEnd x rounds t with
        | .error e => .error e
        | .ok ((as, atEnd), u) => .ok ((a :: as, atEnd), u)

theorem untilEnd_loads {x : Reader ε (Option α)} {back : β → α}
    (hx : ∀ b ∈ l, Loads x (w b) (some (back b))) (hpos : ∀ b ∈ l, 0 < (w b).length)
    (hrounds : l.length ≤ rounds) (hfills : Fills (l.flatMap w) memory) :
    untilEnd x rounds memory = .ok ((l.map back, true), []) := by
  induction l generalizing rounds memory with
  | nil =>
    cases hfills
    cases rounds <;> rfl
  | cons b l ih =>
    obtain ⟨m, m', rfl, hm, hm'⟩ := fills_append hfills
    cases rounds with
    | zero => exact absurd hrounds (Nat.not_succ_le_zero _)
    | succ rounds =>
      have hread := hx b mem_cons_self m hm m'
      have hrest := ih (fun b' hb' => hx b' (mem_cons_of_mem b hb'))
        (fun b' hb' => hpos b' (mem_cons_of_mem b hb')) (Nat.le_of_succ_le_succ hrounds) hm'
      have hne : m ++ m' ≠ [] := by
        intro hnil
        have hlen := hpos b mem_cons_self
        rw [← hm.length_eq, (append_eq_nil_iff.mp hnil).1] at hlen
        exact absurd hlen (lt_irrefl 0)
      rw [untilEnd]
      simp only [hne, if_false, hread, hrest, map_cons]

theorem good_of_untilEnd {x : Reader ε (Option α)} (back : β → α) {E : α → β → Prop}
    (Good : β → Prop) (hgood : ∀ b ∈ l, Good b → Loads x (w b) (some (back b)))
    (honly : ∀ b ∈ l, ∀ memory s a t, Fills (w b) memory → x (memory ++ s) = .ok (some a, t) →
      E a b → Good b) {atEnd : Bool} (hfills : Fills (l.flatMap w) memory)
    (h : untilEnd x rounds memory = .ok ((r, atEnd), t)) (hE : List.Forall₂ E r l) :
    ∀ b ∈ l, Good b := by
  induction l generalizing rounds memory r with
  | nil => exact fun b hb => absurd hb not_mem_nil
  | cons b l ih =>
    obtain ⟨a, r, hab, hr, rfl⟩ := forall₂_cons_right_iff.mp hE
    obtain ⟨m, m', rfl, hm, hm'⟩ := fills_append hfills
    cases rounds with
    | zero => cases h
    | succ rounds =>
      rw [untilEnd] at h
      simp only at h
      split at h
      · cases h
      · split at h
        · cases h
        · cases h
        · next a' t' hread =>
          split at h
          · cases h
          · next as atEnd' u hrest =>
            cases h
            have hb := honly b mem_cons_self m m' a t' hm hread hab
            have hexact := hgood b mem_cons_self hb m hm m'
            rw [hread] at hexact
            cases hexact
            have hall := ih (fun b' hb' => hgood b' (mem_cons_of_mem b hb'))
              (fun b' hb' => honly b' (mem_cons_of_mem b hb')) hm' hrest hr
            intro b' hb'
            rcases mem_cons.mp hb' with rfl | hb'
            · exact hb
            · exact hall b' hb'

end SizedReader
