import MoeJit.Lib.Bytes

/-!
# The head and the tail of addresses

`GetHeadTail` compares each address of a block with the one before it. The head that it finds is what
all addresses begin with. The tail may get longer by a byte with each pair, and it is only looked at
when the head is not a whole address, so that it need not be one of all addresses
(`sameEnd_taillen_iff`). Of equal addresses, the head and the tail are both the whole address.
-/

namespace MoeJit.PacketBB

open Bytes List

/-! ## 1. Model -/

/-- The first loop of `GetHeadTail`: the head ends at the first byte that differs. The rounds are
counted down. -/
def headLoop (last cur : List Byte) (headlen : Nat) : Nat → Nat
  | 0 => headlen
  | rounds + 1 =>
    let i := headlen - (rounds + 1)
    if last[i]? ≠ cur[i]? then i else headLoop last cur headlen rounds

/-- The second loop of `GetHeadTail`, which ends with the value of `i`. -/
def tailLoop (last cur : List Byte) (length headlen taillen : Nat) : Nat → Nat
  | 0 => 0
  | i + 1 =>
    if length - 1 - (i + 1) ≤ taillen ∧ i + 1 > headlen then
      if last[i + 1]? ≠ cur[i + 1]? then i + 1 else tailLoop last cur length headlen taillen i
    else i + 1

/-- The variables of `GetHeadTail`. -/
structure HeadTail where
  buflast : List Byte
  bufcur : List Byte
  headlen : Nat
  taillen : Nat
  deriving DecidableEq

/-- One round of `GetHeadTail`, after which the buffers have changed places. An address is longer
than 0 bytes, so that the loop is never left. -/
def HeadTail.next (length : Nat) (s : HeadTail) (cur : List Byte) : HeadTail :=
  let headlen := headLoop s.buflast cur s.headlen s.headlen
  { buflast := cur
    bufcur := s.buflast
    headlen
    taillen := if length - headlen > 0 then
        length - 1 - tailLoop s.buflast cur length headlen s.taillen (length - 1)
      else s.taillen }

/-- The loop of `GetHeadTail`, which begins with the first address once more. -/
def headTail (length : Nat) : List (List Byte) → HeadTail
  | [] => ⟨[], [], length, length⟩
  | first :: rest => (first :: rest).foldl (HeadTail.next length) ⟨first, [], length, length⟩

def HeadTail.head (s : HeadTail) : List Byte := s.bufcur.take s.headlen

def HeadTail.tail (length : Nat) (s : HeadTail) : List Byte := s.bufcur.drop (length - s.taillen)

/-! ## 2. What addresses share -/

variable {h t : Nat}

section Shared

/-- All words begin with the same `h` bytes. -/
def SameStart (l : List (List Byte)) (h : Nat) : Prop := ∀ x ∈ l, ∀ y ∈ l, x.take h = y.take h

/-- All words of the length end with the same `t` bytes. -/
def SameEnd (length : Nat) (l : List (List Byte)) (t : Nat) : Prop :=
  ∀ x ∈ l, ∀ y ∈ l, x.drop (length - t) = y.drop (length - t)

instance (l : List (List Byte)) : DecidablePred (SameStart l) := fun h =>
  inferInstanceAs (Decidable (∀ x ∈ l, ∀ y ∈ l, x.take h = y.take h))

instance (length : Nat) (l : List (List Byte)) : DecidablePred (SameEnd length l) := fun t =>
  inferInstanceAs (Decidable (∀ x ∈ l, ∀ y ∈ l, x.drop (length - t) = y.drop (length - t)))

/-- How many bytes all words begin with. -/
def sharedStart (length : Nat) (l : List (List Byte)) : Nat := Nat.findGreatest (SameStart l) length

/-- How many bytes all words end with. -/
def sharedEnd (length : Nat) (l : List (List Byte)) : Nat :=
  Nat.findGreatest (SameEnd length l) length

/-- The bytes that the last two of the words end with, outside the start that all share but for one
byte. -/
def pairTail (length : Nat) (before : List (List Byte)) (a b : List Byte) : Nat :=
  min (sharedEnd length [a, b]) (length - 1 - sharedStart length (before ++ [a, b]))

/-- Two words that follow each other, up to which not all words are the same, have a tail which all
words have, also when it gets longer by a byte for each word that comes after them. -/
def TailIsShared (length : Nat) (l : List (List Byte)) : Prop :=
  ∃ before a b after, l = before ++ a :: b :: after ∧
    sharedStart length (before ++ [a, b]) < length ∧
    SameEnd length l (pairTail length before a b + after.length)

variable {length : Nat} {l : List (List Byte)}

theorem SameStart.mono {h' : Nat} (hs : SameStart l h) (hle : h' ≤ h) : SameStart l h' := by
  intro x hx y hy
  have := congrArg (List.take h') (hs x hx y hy)
  rwa [take_take, take_take, min_eq_left hle] at this

theorem SameEnd.mono {t' : Nat} (hs : SameEnd length l t) (hle : t' ≤ t) : SameEnd length l t' := by
  intro x hx y hy
  have := congrArg (List.drop (length - t' - (length - t))) (hs x hx y hy)
  rwa [drop_drop, drop_drop, Nat.add_sub_cancel' (Nat.sub_le_sub_left hle length)] at this

theorem SameStart.subset {l' : List (List Byte)} (hs : SameStart l h) (hsub : l' ⊆ l) :
    SameStart l' h := fun x hx y hy => hs x (hsub hx) y (hsub hy)

theorem sameStart_sharedStart : SameStart l (sharedStart length l) :=
  Nat.findGreatest_spec (P := SameStart l) (Nat.zero_le length) fun _ _ _ _ => rfl

theorem sharedStart_le : sharedStart length l ≤ length := Nat.findGreatest_le length

theorem le_sharedStart (hle : h ≤ length) (hs : SameStart l h) :
    h ≤ sharedStart length l := Nat.le_findGreatest hle hs

theorem sharedStart_append_le (l' : List (List Byte)) :
    sharedStart length (l ++ l') ≤ sharedStart length l :=
  le_sharedStart sharedStart_le (sameStart_sharedStart.subset (subset_append_left l l'))

theorem le_sharedEnd (hle : t ≤ length) (hs : SameEnd length l t) :
    t ≤ sharedEnd length l := Nat.le_findGreatest hle hs

theorem sharedEnd_lt (hs : ¬SameEnd length l (t + 1)) : sharedEnd length l ≤ t := by
  by_contra hlt
  have hspec : SameEnd length l (sharedEnd length l) :=
    Nat.findGreatest_of_ne_zero (P := SameEnd length l) rfl (by omega)
  exact hs (hspec.mono (not_le.mp hlt))

/-- With one more word, the start is shared as far as the last word and the new one share it. -/
theorem sharedStart_concat {init : List (List Byte)} {last cur : List Byte}
    (hle : h ≤ sharedStart length (init ++ [last])) (hsame : last.take h = cur.take h)
    (hmax : h < sharedStart length (init ++ [last]) → last.take (h + 1) ≠ cur.take (h + 1)) :
    sharedStart length (init ++ [last] ++ [cur]) = h := by
  have hlen : h ≤ length := hle.trans sharedStart_le
  have hlast : last ∈ init ++ [last] := mem_append_right _ mem_cons_self
  refine le_antisymm ?_ (le_sharedStart hlen ?_)
  · by_contra hlt
    have hspec : SameStart (init ++ [last] ++ [cur])
        (sharedStart length (init ++ [last] ++ [cur])) := sameStart_sharedStart
    have hmore := hspec.mono (not_le.mp hlt)
    refine hmax ((not_le.mp hlt).trans_le (sharedStart_append_le [cur])) ?_
    exact hmore last (mem_append_left _ hlast) cur (mem_append_right _ mem_cons_self)
  · have hinit : ∀ x ∈ init ++ [last], x.take h = cur.take h := fun x hx =>
      ((sameStart_sharedStart.mono hle) x hx last hlast).trans hsame
    have hall : ∀ x ∈ init ++ [last] ++ [cur], x.take h = cur.take h := by
      intro x hx
      rcases mem_append.mp hx with hx | hx
      · exact hinit x hx
      · rw [mem_singleton.mp hx]
    exact fun x hx y hy => (hall x hx).trans (hall y hy).symm

end Shared

/-! ## 3. The loops -/

section Loops

variable {length : Nat} {last cur : List Byte}

theorem take_succ_eq_iff {i : Nat} (h : last.take i = cur.take i) :
    last.take (i + 1) = cur.take (i + 1) ↔ last[i]? = cur[i]? := by
  rw [take_add_one, take_add_one, h, append_cancel_left_eq]
  cases last[i]? <;> cases cur[i]? <;> simp

theorem headLoop_spec (last cur : List Byte) (headlen rounds : Nat) (hrounds : rounds ≤ headlen)
    (h : last.take (headlen - rounds) = cur.take (headlen - rounds)) :
    headLoop last cur headlen rounds ≤ headlen ∧
      last.take (headLoop last cur headlen rounds) = cur.take (headLoop last cur headlen rounds) ∧
      (headLoop last cur headlen rounds < headlen →
        last.take (headLoop last cur headlen rounds + 1) ≠
          cur.take (headLoop last cur headlen rounds + 1)) := by
  induction rounds with
  | zero => exact ⟨le_refl _, h, fun hlt => absurd hlt (lt_irrefl _)⟩
  | succ rounds ih =>
    rw [headLoop]
    split
    · next hne =>
      exact ⟨Nat.sub_le _ _, h, fun _ heq => hne ((take_succ_eq_iff h).mp heq)⟩
    · next heq =>
      have hnext : headlen - (rounds + 1) + 1 = headlen - rounds := by omega
      refine ih (Nat.le_of_succ_le hrounds) ?_
      rw [← hnext]
      exact (take_succ_eq_iff h).mpr (not_not.mp heq)

theorem drop_eq_iff {i : Nat} (h : last.drop (i + 1) = cur.drop (i + 1)) (hl : last.length = length)
    (hc : cur.length = length) (hi : i < length) :
    last.drop i = cur.drop i ↔ last[i]? = cur[i]? := by
  have hil : i < last.length := hl ▸ hi
  have hic : i < cur.length := hc ▸ hi
  rw [drop_eq_getElem_cons hil, drop_eq_getElem_cons hic, h,
    getElem?_eq_getElem hil, getElem?_eq_getElem hic, List.cons.injEq,
    Option.some.injEq, and_iff_left rfl]

/-- The tail is shared by both addresses, and a byte more is not, or it would be more than a byte
longer than the one before, or only a byte would be left after the head. -/
theorem tailLoop_spec (hl : last.length = length) (hc : cur.length = length)
    (headlen taillen : Nat) (i : Nat) (hi : i < length) (hhead : headlen ≤ i)
    (htail : length - 1 - i ≤ taillen + 1) (hsame : last.drop (i + 1) = cur.drop (i + 1)) :
    let i' := tailLoop last cur length headlen taillen i
    headlen ≤ i' ∧ i' ≤ i ∧ last.drop (i' + 1) = cur.drop (i' + 1) ∧ length - 1 - i' ≤ taillen + 1 ∧
      (length - 1 - i' = taillen + 1 ∨ i' = headlen ∨ last.drop i' ≠ cur.drop i') := by
  induction i with
  | zero =>
    exact ⟨hhead, le_refl 0, hsame, htail, .inr (.inl (Nat.le_zero.mp hhead).symm)⟩
  | succ i ih =>
    rw [tailLoop]
    split
    · next hgo =>
      split
      · next hne =>
        exact ⟨hhead, le_refl _, hsame, htail,
          .inr (.inr fun heq => hne ((drop_eq_iff hsame hl hc hi).mp heq))⟩
      · next heq =>
        have hless := ih (Nat.lt_of_succ_lt hi) (Nat.le_of_lt_succ hgo.2) (by omega)
          ((drop_eq_iff hsame hl hc hi).mpr (not_not.mp heq))
        exact ⟨hless.1, hless.2.1.trans (Nat.le_succ i), hless.2.2⟩
    · next hstop =>
      refine ⟨hhead, le_refl _, hsame, htail, ?_⟩
      by_cases hlong : length - 1 - (i + 1) ≤ taillen
      · exact .inr (.inl (le_antisymm (not_lt.mp fun hlt => hstop ⟨hlong, hlt⟩) hhead))
      · exact .inl (by omega)

end Loops

section HeadTail

variable {length : Nat}

/-- The words before the pair, the pair and the words after it. -/
structure Split (length : Nat) (l before : List (List Byte)) (a b : List Byte)
    (after : List (List Byte)) : Prop where
  eq : l = before ++ a :: b :: after
  differ : sharedStart length (before ++ [a, b]) < length

/-- What is known of the variables after the words of a list. -/
structure Scanned (length : Nat) (l : List (List Byte)) (s : HeadTail) : Prop where
  last : ∃ init, l = init ++ [s.buflast]
  current : s.bufcur ∈ l
  head : s.headlen = sharedStart length l
  whole : s.headlen = length → s.taillen = length
  reached : s.headlen < length → ∃ before a b after, Split length l before a b after ∧
    s.taillen = pairTail length before a b + after.length
  bounded : ∀ before a b after, Split length l before a b after →
    s.taillen ≤ pairTail length before a b + after.length

variable {l : List (List Byte)}

/-- A split of a longer list is at its last word, or is one of the list before. -/
theorem split_concat {before after : List (List Byte)} {init : List (List Byte)}
    {last cur a b : List Byte} (hl : l = init ++ [last])
    (h : Split length (l ++ [cur]) before a b after) :
    (before = init ∧ a = last ∧ b = cur ∧ after = []) ∨
      ∃ after', after = after' ++ [cur] ∧ Split length l before a b after' := by
  rcases eq_nil_or_concat after with rfl | ⟨after', c, rfl⟩
  · left
    have heq : init ++ [last] ++ [cur] = before ++ [a] ++ [b] := by
      rw [← hl, h.eq, append_assoc]
      rfl
    obtain ⟨heq, hb⟩ := append_inj' heq rfl
    obtain ⟨hinit, ha⟩ := append_inj' heq rfl
    exact ⟨hinit.symm, (List.cons.inj ha).1.symm, (List.cons.inj hb).1.symm, rfl⟩
  · right
    have heq : l ++ [cur] = before ++ a :: b :: after' ++ [c] := by
      rw [h.eq, concat_eq_append, append_assoc]
      rfl
    obtain ⟨hl', hc⟩ := append_inj' heq rfl
    refine ⟨after', ?_, ⟨hl', h.differ⟩⟩
    rw [concat_eq_append, (List.cons.inj hc).1]

theorem split_append {before after : List (List Byte)} {a b cur : List Byte}
    (h : Split length l before a b after) :
    Split length (l ++ [cur]) before a b (after ++ [cur]) where
  eq := by
    rw [h.eq, append_assoc]
    rfl
  differ := h.differ

theorem sameEnd_pair {a b : List Byte} (h : a.drop (length - t) = b.drop (length - t)) :
    SameEnd length [a, b] t := by
  intro x hx y hy
  have hx : x = a ∨ x = b := by simpa using hx
  have hy : y = a ∨ y = b := by simpa using hy
  rcases hx with rfl | rfl <;> rcases hy with rfl | rfl
  · rfl
  · exact h
  · exact h.symm
  · rfl

/-- The new length of the tail: as long as the pair allows it, or a byte longer than before. -/
theorem tail_of_pair (init : List (List Byte)) {last cur : List Byte} {headlen : Nat}
    (taillen : Nat) (hl : last.length = length) (hc : cur.length = length)
    (hhead : sharedStart length (init ++ [last, cur]) = headlen) (hlt : headlen < length) :
    let taillen' := length - 1 - tailLoop last cur length headlen taillen (length - 1)
    taillen' ≤ pairTail length init last cur ∧ taillen' ≤ taillen + 1 ∧ taillen' < length ∧
      (taillen' = taillen + 1 ∨ taillen' = pairTail length init last cur) := by
  have hnone : last.drop (length - 1 + 1) = cur.drop (length - 1 + 1) := by
    rw [drop_eq_nil_of_le (by omega), drop_eq_nil_of_le (by omega)]
  obtain ⟨hle, hi, hsame, hmore, hstop⟩ := tailLoop_spec hl hc headlen taillen (length - 1)
    (by omega) (by omega) (by omega) hnone
  generalize tailLoop last cur length headlen taillen (length - 1) = i at hle hi hsame hmore hstop
  have hend : SameEnd length [last, cur] (length - 1 - i) := by
    refine sameEnd_pair ?_
    rwa [show length - (length - 1 - i) = i + 1 by omega]
  have hshared := le_sharedEnd (show length - 1 - i ≤ length by omega) hend
  have hpair : length - 1 - i ≤ pairTail length init last cur := by
    rw [pairTail, hhead]
    exact le_min hshared (by omega)
  refine ⟨hpair, hmore, by omega, ?_⟩
  rcases hstop with hgrow | hhere | hdiffer
  · exact .inl hgrow
  · refine .inr (le_antisymm hpair ?_)
    rw [pairTail, hhead, hhere]
    exact min_le_right _ _
  · refine .inr (le_antisymm hpair ((min_le_left _ _).trans (sharedEnd_lt fun hmore => hdiffer ?_)))
    have hpairEnd := hmore last mem_cons_self cur (mem_cons_of_mem _ mem_cons_self)
    rwa [show length - (length - 1 - i + 1) = i by omega] at hpairEnd

theorem Scanned.next {l : List (List Byte)} {s : HeadTail} (h : Scanned length l s)
    (hlen : ∀ w ∈ l, w.length = length) {cur : List Byte} (hcur : cur.length = length) :
    Scanned length (l ++ [cur]) (s.next length cur) := by
  obtain ⟨init, hinit⟩ := h.last
  have hlast : s.buflast.length = length :=
    hlen s.buflast (hinit ▸ mem_append_right init mem_cons_self)
  obtain ⟨hle, hsame, hmax⟩ := headLoop_spec s.buflast cur s.headlen s.headlen (le_refl _)
    (by rw [Nat.sub_self]; rfl)
  have hold := h.head
  have hshared : sharedStart length (l ++ [cur]) = headLoop s.buflast cur s.headlen s.headlen := by
    rw [hinit] at hold ⊢
    exact sharedStart_concat (hold ▸ hle) hsame (hold ▸ hmax)
  have hpairs : l ++ [cur] = init ++ [s.buflast, cur] := by
    rw [hinit, append_assoc]
    rfl
  have hcurrent : s.buflast ∈ l ++ [cur] := hpairs ▸ mem_append_right init mem_cons_self
  have hmost : s.headlen ≤ length := hold.trans_le sharedStart_le
  have hnext : s.next length cur = ⟨cur, s.buflast, headLoop s.buflast cur s.headlen s.headlen,
      if length - headLoop s.buflast cur s.headlen s.headlen > 0 then
        length - 1 - tailLoop s.buflast cur length (headLoop s.buflast cur s.headlen s.headlen)
          s.taillen (length - 1)
      else s.taillen⟩ := rfl
  rw [hnext]
  generalize headLoop s.buflast cur s.headlen s.headlen = headlen at hle hshared ⊢
  rcases lt_or_ge headlen length with hlt | hge
  · rw [if_pos (Nat.sub_pos_of_lt hlt)]
    obtain ⟨hpair, hmore, hless, hstop⟩ :=
      tail_of_pair init s.taillen hlast hcur (hpairs ▸ hshared) hlt
    refine ⟨⟨l, rfl⟩, hcurrent, hshared.symm, fun heq => absurd heq hlt.ne, fun _ => ?_,
      fun before a b after hsplit => ?_⟩
    · rcases hstop with hgrow | hequal
      · have hdiffer : s.headlen < length := by
          refine lt_of_le_of_ne hmost fun heq => ?_
          have := h.whole heq
          omega
        obtain ⟨before, a, b, after, hsplit, htail⟩ := h.reached hdiffer
        refine ⟨before, a, b, after ++ [cur], split_append hsplit, hgrow.trans ?_⟩
        rw [htail, length_append]
        rfl
      · exact ⟨init, s.buflast, cur, [], ⟨hpairs, (hpairs ▸ hshared).trans_lt hlt⟩, hequal⟩
    · rcases split_concat hinit hsplit with ⟨rfl, rfl, rfl, rfl⟩ | ⟨after', rfl, hsplit'⟩
      · exact hpair
      · have := h.bounded before a b after' hsplit'
        rw [length_append]
        exact hmore.trans (Nat.succ_le_succ this)
  · have hwhole : s.headlen = length := le_antisymm hmost (hge.trans hle)
    have hall : headlen = length := le_antisymm (hle.trans hmost) hge
    rw [if_neg (by omega)]
    refine ⟨⟨l, rfl⟩, hcurrent, hshared.symm, fun _ => h.whole hwhole,
      fun hlt => absurd hall hlt.ne,
      fun before a b after hsplit => ?_⟩
    have hprefix : sharedStart length (before ++ [a, b] ++ after) ≤
        sharedStart length (before ++ [a, b]) := sharedStart_append_le after
    have heq : l ++ [cur] = before ++ [a, b] ++ after := by
      rw [hsplit.eq, append_assoc]
      rfl
    rw [← heq, hshared, hall] at hprefix
    exact absurd hsplit.differ (not_lt.mpr hprefix)

theorem headTail_singleton (first : List Byte) :
    headTail length [first] = ⟨first, first, length, length⟩ := by
  obtain ⟨hle, -, hmax⟩ := headLoop_spec first first length length (le_refl _) rfl
  have hall : headLoop first first length length = length :=
    le_antisymm hle (not_lt.mp fun hlt => hmax hlt rfl)
  show HeadTail.next length ⟨first, [], length, length⟩ first = _
  simp [HeadTail.next, hall]

theorem scanned_singleton (first : List Byte) :
    Scanned length [first] ⟨first, first, length, length⟩ where
  last := ⟨[], rfl⟩
  current := mem_cons_self
  head := by
    refine le_antisymm (le_sharedStart (le_refl _) fun x hx y hy => ?_) sharedStart_le
    rw [mem_singleton.mp hx, mem_singleton.mp hy]
  whole _ := rfl
  reached hlt := absurd hlt (lt_irrefl _)
  bounded before a b after h := by
    have hcount := congrArg List.length h.eq
    simp only [length_append, length_cons, length_nil] at hcount
    omega

theorem headTail_concat (hne : l ≠ []) (cur : List Byte) :
    headTail length (l ++ [cur]) = (headTail length l).next length cur := by
  cases l with
  | nil => exact absurd rfl hne
  | cons first rest =>
    rw [cons_append, headTail, ← cons_append, foldl_append]
    rfl

theorem scanned_headTail (hne : l ≠ []) (hlen : ∀ w ∈ l, w.length = length) :
    Scanned length l (headTail length l) := by
  induction l using List.reverseRecOn with
  | nil => exact absurd rfl hne
  | append_singleton l cur ih =>
    rcases eq_or_ne l [] with rfl | hl
    · rw [nil_append, headTail_singleton]
      exact scanned_singleton cur
    · rw [headTail_concat hl]
      exact (ih hl fun w hw => hlen w (mem_append_left _ hw)).next
        (fun w hw => hlen w (mem_append_left _ hw))
        (hlen cur (mem_append_right _ mem_cons_self))

theorem sameEnd_taillen_iff {s : HeadTail} (h : Scanned length l s) (hdiffer : s.headlen < length) :
    SameEnd length l s.taillen ↔ TailIsShared length l := by
  constructor
  · intro hend
    obtain ⟨before, a, b, after, hsplit, htail⟩ := h.reached hdiffer
    exact ⟨before, a, b, after, hsplit.eq, hsplit.differ, htail ▸ hend⟩
  · rintro ⟨before, a, b, after, heq, hlt, hend⟩
    exact hend.mono (h.bounded before a b after ⟨heq, hlt⟩)

/-- Of words that are not all the same, there is a byte between the head and the tail. -/
theorem headlen_add_taillen_lt {s : HeadTail} (h : Scanned length l s)
    (hdiffer : s.headlen < length) : s.headlen + s.taillen < length := by
  obtain ⟨before, a, b, after, hsplit, -⟩ := h.reached hdiffer
  obtain ⟨init, x, y, hl⟩ : ∃ init x y, l = init ++ [x, y] := by
    rcases eq_nil_or_concat after with rfl | ⟨after', c, rfl⟩
    · exact ⟨before, a, b, hsplit.eq⟩
    · rcases eq_nil_or_concat after' with rfl | ⟨after'', c', rfl⟩
      · exact ⟨before ++ [a], b, c, by rw [hsplit.eq]; simp⟩
      · exact ⟨before ++ a :: b :: after'', c', c, by rw [hsplit.eq]; simp⟩
  have hlast := h.bounded init x y [] ⟨hl, hl ▸ h.head ▸ hdiffer⟩
  have hpair : pairTail length init x y ≤ length - 1 - s.headlen := by
    rw [pairTail, h.head, hl]
    exact min_le_right _ _
  have hnone : ([] : List (List Byte)).length = 0 := rfl
  omega

end HeadTail

end MoeJit.PacketBB
