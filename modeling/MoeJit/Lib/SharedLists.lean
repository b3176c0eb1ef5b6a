import Mathlib.Data.List.Perm.Subperm
import Mathlib.Tactic.Ring

/-!
# Linked lists that share their tails

Nodes in an arena, each with the next one and a count, and the pointers to the first nodes of the
lists. A node that is freed leaves a hole and its address is not used again.

What a list is read as depends on the links of its nodes only (`Segment.congr`). A change of the
counts and the pointers is followed by the difference between the count of a node and the number of
pointers to it (`Balanced`). Nodes that no other pointer leads to belong to no other list
(`Segment.exclusive`).
-/

namespace SharedLists

open List
open Option (bind_some getD_some join_eq_some_iff map_some)

/-! ## 1. Nodes, pointers and lists -/

structure Node (α : Type) where
  next : Option Nat
  count : BitVec 32
  value : α
  deriving DecidableEq

structure Store (α : Type) where
  nodes : List (Option (Node α))
  heads : List (Option Nat)
  deriving DecidableEq

/-- What holds a pointer. -/
inductive Cell
  | head (i : Nat)
  | next (a : Nat)
  deriving DecidableEq

namespace Store

variable {α : Type} (s : Store α)

def node? (a : Nat) : Option (Node α) := s.nodes[a]?.join

def setNode (a : Nat) (node : Option (Node α)) : Store α := { s with nodes := s.nodes.set a node }

def alloc (node : Node α) : Store α := { s with nodes := s.nodes ++ [some node] }

def setCount (a : Nat) (count : BitVec 32) : Store α :=
  s.setNode a ((s.node? a).map fun node => { node with count := count })

def setHead (i : Nat) (p : Option Nat) : Store α := { s with heads := s.heads.set i p }

def addHead (p : Option Nat) : Store α := { s with heads := s.heads ++ [p] }

def pointer : Cell → Option Nat
  | .head i => s.heads[i]?.join
  | .next a => (s.node? a).bind Node.next

def setPointer (p : Option Nat) : Cell → Store α
  | .head i => s.setHead i p
  | .next a => s.setNode a ((s.node? a).map fun node => { node with next := p })

/-- Where the cell is in the list of all pointers. -/
def place : Cell → Nat
  | .head i => i
  | .next a => s.heads.length + a

/-- All pointers. -/
def pointers : List (Option Nat) := s.heads ++ s.nodes.map fun node => node.bind Node.next

/-- The number of pointers to a node. -/
def refs (a : Nat) : Nat := s.pointers.count (some a)

/-- What a node is read as. -/
def link (a : Nat) : Option (Option Nat × α) := (s.node? a).map fun node => (node.next, node.value)

end Store

/-- The nodes, with their addresses, that lead from one pointer to another. -/
inductive Segment {α : Type} (s : Store α) : Option Nat → List (Nat × α) → Option Nat → Prop
  | nil (p : Option Nat) : Segment s p [] p
  | cons {a : Nat} {p q : Option Nat} {value : α} {list : List (Nat × α)}
      (hlink : s.link a = some (p, value)) (rest : Segment s p list q) :
      Segment s (some a) ((a, value) :: list) q

/-- The cell that holds the pointer after the nodes. -/
def cellAfter {α : Type} (c : Cell) : List (Nat × α) → Cell
  | [] => c
  | x :: list => cellAfter (.next x.1) list

section Segments

variable {α : Type} {s s' : Store α} {p q r : Option Nat} {list list' : List (Nat × α)}

theorem Segment.append (h : Segment s p list q) (h' : Segment s q list' r) :
    Segment s p (list ++ list') r := by
  induction h with
  | nil => exact h'
  | cons hlink _ ih => exact .cons hlink (ih h')

theorem Segment.split (h : Segment s p (list ++ list') r) :
    ∃ q, Segment s p list q ∧ Segment s q list' r := by
  induction list generalizing p with
  | nil => exact ⟨p, .nil p, h⟩
  | cons x list ih =>
    cases h with
    | cons hlink rest =>
      obtain ⟨q, hlist, hlist'⟩ := ih rest
      exact ⟨q, .cons hlink hlist, hlist'⟩

theorem Segment.eq_head (h : Segment s p list q) : ∀ x ∈ list.head?, p = some x.1 := by
  intro x hx
  cases h with
  | nil => cases hx
  | cons _ _ =>
    cases hx
    rfl

theorem Segment.congr (h : Segment s p list q) (hlink : ∀ x ∈ list, s'.link x.1 = s.link x.1) :
    Segment s' p list q := by
  induction h with
  | nil p => exact .nil p
  | cons hnode _ ih =>
    obtain ⟨hhead, htail⟩ := forall_mem_cons.mp hlink
    exact .cons (hhead.trans hnode) (ih htail)

/-- A pointer is read in one way. -/
theorem Segment.unique (h : Segment s p list none) (h' : Segment s p list' none) :
    list = list' := by
  induction list generalizing p list' with
  | nil =>
    cases h with
    | nil =>
      cases h' with
      | nil => rfl
  | cons x list ih =>
    cases h with
    | cons hlink rest =>
      cases h' with
      | cons hlink' rest' =>
        rw [hlink] at hlink'
        cases hlink'
        rw [ih rest rest']

theorem Segment.suffix_of_mem (h : Segment s p list none) {x : Nat × α} (hx : x ∈ list) :
    ∃ before after, list = before ++ x :: after ∧ Segment s (some x.1) (x :: after) none := by
  obtain ⟨before, after, rfl⟩ := append_of_mem hx
  obtain ⟨q, -, hafter⟩ := h.split
  refine ⟨before, after, rfl, ?_⟩
  cases hafter with
  | cons hlink rest => exact .cons hlink rest

/-- No node comes twice. -/
theorem Segment.nodup (h : Segment s p list none) : (list.map Prod.fst).Nodup := by
  induction list generalizing p with
  | nil => exact .nil
  | cons x list ih =>
    cases h with
    | @cons a p _ value _ hlink rest =>
      refine nodup_cons.mpr ⟨fun hmem => ?_, ih rest⟩
      obtain ⟨y, hy, heq⟩ := mem_map.mp hmem
      obtain ⟨before, after, hsplit, hsuffix⟩ := rest.suffix_of_mem hy
      have hwhole : Segment s (some y.1) ((a, value) :: list) none := heq ▸ .cons hlink rest
      have hlen := congrArg List.length (hsuffix.unique hwhole)
      rw [hsplit, length_cons, length_cons, length_append, length_cons] at hlen
      omega

theorem node?_lt {a : Nat} {node : Node α} (h : s.node? a = some node) : a < s.nodes.length := by
  refine Nat.lt_of_not_le fun hle => ?_
  unfold Store.node? at h
  rw [getElem?_eq_none hle] at h
  cases h

theorem node?_of_link {a : Nat} {x : Option Nat × α} (h : s.link a = some x) :
    ∃ node, s.node? a = some node ∧ node.next = x.1 ∧ node.value = x.2 := by
  obtain ⟨node, hnode, rfl⟩ := Option.map_eq_some_iff.mp h
  exact ⟨node, hnode, rfl, rfl⟩

/-- There are not more nodes than the arena has. -/
theorem Segment.length_le (h : Segment s p list none) : list.length ≤ s.nodes.length := by
  have hsub : list.map Prod.fst ⊆ List.range s.nodes.length := by
    intro a ha
    obtain ⟨⟨a, value⟩, hx, rfl⟩ := mem_map.mp ha
    obtain ⟨before, after, -, hsuffix⟩ := h.suffix_of_mem hx
    cases hsuffix with
    | cons hlink _ =>
      obtain ⟨node, hnode, -⟩ := node?_of_link hlink
      exact mem_range.mpr (node?_lt hnode)
  have hlen := (List.Nodup.subperm h.nodup hsub).length_le
  rw [length_map, length_range] at hlen
  exact hlen

end Segments

/-! ## 2. Changes of one node or pointer -/

section Changes

variable {α : Type} {s s' : Store α} {a b : Nat} {node : Node α} {p : Option Nat} {i : Nat}

theorem node?_setNode (ha : a < s.nodes.length) (o : Option (Node α)) (b : Nat) :
    (s.setNode a o).node? b = if a = b then o else s.node? b := by
  unfold Store.node? Store.setNode
  dsimp only
  rw [getElem?_set]
  split
  · rfl
  · rfl

theorem node?_alloc (node : Node α) (b : Nat) :
    (s.alloc node).node? b = if b = s.nodes.length then some node else s.node? b := by
  unfold Store.node? Store.alloc
  dsimp only
  rw [getElem?_append]
  split
  · next hlt => rw [if_neg (Nat.ne_of_lt hlt)]
  · next hge =>
    split
    · next heq =>
      rw [heq, Nat.sub_self]
      rfl
    · next hne =>
      have hpos : 0 < b - s.nodes.length := by omega
      rw [getElem?_eq_none (Nat.le_of_not_lt hge), getElem?_eq_none hpos]

theorem link_setNode (ha : a < s.nodes.length) (o : Option (Node α)) (b : Nat) :
    (s.setNode a o).link b =
      if a = b then o.map fun node => (node.next, node.value) else s.link b := by
  unfold Store.link
  rw [node?_setNode ha]
  split
  · rfl
  · rfl

theorem link_setCount (hnode : s.node? a = some node) (count : BitVec 32) (b : Nat) :
    (s.setCount a count).link b = s.link b := by
  unfold Store.setCount
  rw [link_setNode (node?_lt hnode)]
  split
  · next heq =>
    rw [← heq]
    unfold Store.link
    rw [hnode]
    rfl
  · rfl

theorem node?_setCount (hnode : s.node? a = some node) (count : BitVec 32) (b : Nat) :
    (s.setCount a count).node? b =
      if a = b then some { node with count := count } else s.node? b := by
  unfold Store.setCount
  rw [node?_setNode (node?_lt hnode), hnode]
  rfl

theorem link_alloc (node : Node α) (b : Nat) : (s.alloc node).link b =
    if b = s.nodes.length then some (node.next, node.value) else s.link b := by
  unfold Store.link
  rw [node?_alloc]
  split
  · rfl
  · rfl

/-- A pointer that changes in the list of all pointers. -/
theorem count_set_add {β : Type} [BEq β] {list : List β} {i : Nat} {x : β}
    (hi : list[i]? = some x) (y z : β) :
    (list.set i y).count z + (if x == z then 1 else 0) =
      list.count z + (if y == z then 1 else 0) := by
  induction list generalizing i with
  | nil => cases hi
  | cons head list ih =>
    cases i with
    | zero =>
      cases hi
      rw [set_cons_zero, count_cons, count_cons]
      exact Nat.add_right_comm _ _ _
    | succ i =>
      have htail := ih (i := i) hi
      rw [set_cons_succ, count_cons, count_cons]
      omega

/-- 1 at one address. -/
def unit (p : Option Nat) (x : Nat) : Int := if p == some x then 1 else 0

theorem refs_set (hpointers : s'.pointers = s.pointers.set i p) {q : Option Nat}
    (hi : s.pointers[i]? = some q) (x : Nat) :
    (s'.refs x : Int) = s.refs x - unit q x + unit p x := by
  have hcount := count_set_add hi p (some x)
  have hcast : (s'.refs x : Int) + unit q x = s.refs x + unit p x := by
    unfold Store.refs unit
    rw [hpointers]
    exact_mod_cast hcount
  omega

theorem refs_setNode (hnode : s.node? a = some node) (o : Option (Node α)) (x : Nat) :
    ((s.setNode a o).refs x : Int) = s.refs x - unit node.next x + unit (o.bind Node.next) x := by
  have hlt := node?_lt hnode
  refine refs_set (i := s.heads.length + a) ?_ ?_ x
  · unfold Store.pointers Store.setNode
    dsimp only
    rw [map_set, set_append_right _ _ (Nat.le_add_right _ _), Nat.add_sub_cancel_left]
  · unfold Store.node? at hnode
    unfold Store.pointers
    rw [getElem?_append_right (Nat.le_add_right _ _), Nat.add_sub_cancel_left,
      getElem?_map, getElem?_eq_getElem hlt]
    rw [getElem?_eq_getElem hlt] at hnode
    rw [map_some, show s.nodes[a] = some node from hnode]
    rfl

theorem refs_setCount (hnode : s.node? a = some node) (count : BitVec 32) (x : Nat) :
    (s.setCount a count).refs x = s.refs x := by
  have hrefs := refs_setNode hnode ((s.node? a).map fun node => { node with count := count }) x
  rw [hnode] at hrefs
  unfold Store.setCount
  rw [hnode]
  dsimp only [map_some, bind_some] at hrefs ⊢
  omega

theorem refs_setHead (hi : s.heads[i]? = some p) (q : Option Nat) (x : Nat) :
    ((s.setHead i q).refs x : Int) = s.refs x - unit p x + unit q x := by
  obtain ⟨hlt, -⟩ := List.getElem?_eq_some_iff.mp hi
  refine refs_set (i := i) ?_ ?_ x
  · unfold Store.pointers Store.setHead
    dsimp only
    rw [set_append_left _ _ hlt]
  · unfold Store.pointers
    rw [getElem?_append_left hlt, hi]

theorem refs_addHead (p : Option Nat) (x : Nat) :
    ((s.addHead p).refs x : Int) = s.refs x + unit p x := by
  unfold Store.refs Store.pointers Store.addHead unit
  dsimp only
  rw [append_assoc, count_append, count_append, count_append, count_singleton]
  split
  · push_cast
    ring
  · push_cast
    ring

theorem refs_alloc (node : Node α) (x : Nat) :
    ((s.alloc node).refs x : Int) = s.refs x + unit node.next x := by
  unfold Store.refs Store.pointers Store.alloc unit
  dsimp only
  rw [map_append, ← append_assoc, count_append, map_singleton, count_singleton, bind_some]
  split
  · rfl
  · rfl

end Changes

/-! ## 3. Counts -/

variable {c : Cell}

section Counts

variable {α : Type} {s : Store α} {a b : Nat} {node : Node α} {p q : Option Nat} {d d' : Nat → Int}

/-- The count of a node, 0 where there is none. -/
def Store.countAt (s : Store α) (a : Nat) : Nat := ((s.node? a).map (·.count.toNat)).getD 0

/-- The counts are the numbers of pointers, up to `d`. -/
def Balanced (s : Store α) (d : Nat → Int) : Prop :=
  ∀ a, (s.countAt a : Int) = s.refs a + d a

theorem Balanced.congr (h : Balanced s d) (hd : ∀ x, d x = d' x) : Balanced s d' :=
  fun x => hd x ▸ h x

theorem unit_none (x : Nat) : unit none x = 0 := rfl

theorem unit_some (a x : Nat) : unit (some a) x = if a = x then 1 else 0 := by
  unfold unit
  rw [Option.some_beq_some]
  exact if_congr beq_iff_eq rfl rfl

theorem countAt_of_node (h : s.node? a = some node) : s.countAt a = node.count.toNat := by
  unfold Store.countAt
  rw [h]
  rfl

theorem countAt_setNode (ha : a < s.nodes.length) (o : Option (Node α)) (x : Nat) :
    ((s.setNode a o).countAt x : Int) =
      s.countAt x + ((o.map (·.count.toNat)).getD 0 - s.countAt a) * unit (some a) x := by
  rw [unit_some]
  unfold Store.countAt
  rw [node?_setNode ha]
  split
  · next heq =>
    rw [← heq]
    omega
  · omega

theorem Balanced.dec (h : Balanced s d) (hnode : s.node? a = some node)
    (hpos : 0 < node.count.toNat) :
    Balanced (s.setCount a (node.count - 1)) fun x => d x - unit (some a) x := by
  intro x
  have hcount := countAt_setNode (node?_lt hnode)
    ((s.node? a).map fun node' => { node' with count := node.count - 1 }) x
  have hrefs := refs_setCount hnode (node.count - 1) x
  have hone : (1 : BitVec 32).toNat = 1 := rfl
  have hsub : (node.count - 1).toNat = node.count.toNat - 1 := by
    have hlt := node.count.isLt
    rw [BitVec.toNat_sub, hone]
    omega
  rw [hnode, map_some, map_some, getD_some, countAt_of_node hnode, hsub, h x] at hcount
  rw [hrefs]
  unfold Store.setCount
  rw [hnode, map_some, hcount, Nat.cast_sub hpos]
  ring

theorem Balanced.inc (h : Balanced s d) (hnode : s.node? a = some node)
    (hroom : node.count.toNat + 1 < 2 ^ 32) :
    Balanced (s.setCount a (node.count + 1)) fun x => d x + unit (some a) x := by
  intro x
  have hcount := countAt_setNode (node?_lt hnode)
    ((s.node? a).map fun node' => { node' with count := node.count + 1 }) x
  have hrefs := refs_setCount hnode (node.count + 1) x
  have hadd : (node.count + 1).toNat = node.count.toNat + 1 := by
    rw [BitVec.toNat_add]
    exact Nat.mod_eq_of_lt hroom
  rw [hnode, map_some, map_some, getD_some, countAt_of_node hnode, hadd, h x] at hcount
  rw [hrefs]
  unfold Store.setCount
  rw [hnode, map_some, hcount]
  push_cast
  ring

theorem countAt_setHead (i : Nat) (x : Nat) : (s.setHead i p).countAt x = s.countAt x := rfl

section

variable (h : Balanced s d)
include h

theorem Balanced.setHead {i : Nat} (hi : s.heads[i]? = some p) (q : Option Nat) :
    Balanced (s.setHead i q) fun x => d x + unit p x - unit q x := by
  intro x
  rw [countAt_setHead, refs_setHead hi, h x]
  ring

theorem Balanced.setNext (hnode : s.node? a = some node) (q : Option Nat) :
    Balanced (s.setPointer q (.next a)) fun x => d x + unit node.next x - unit q x := by
  intro x
  have hcount := countAt_setNode (node?_lt hnode)
    ((s.node? a).map fun node => { node with next := q }) x
  have hrefs := refs_setNode hnode ((s.node? a).map fun node => { node with next := q }) x
  rw [hnode] at hcount hrefs
  unfold Store.setPointer
  dsimp only
  rw [hnode, hrefs, hcount, countAt_of_node hnode, h x]
  dsimp only [map_some, getD_some, bind_some]
  ring

theorem Balanced.setPointer (hc : s.pointer c = some a) (q : Option Nat) :
    Balanced (s.setPointer q c) fun x => d x + unit (some a) x - unit q x := by
  cases c with
  | head i => exact h.setHead (join_eq_some_iff.mp hc) q
  | next b =>
    obtain ⟨node, hnode, hnext⟩ := Option.bind_eq_some_iff.mp hc
    exact hnext ▸ h.setNext hnode q

theorem Balanced.addHead (p : Option Nat) : Balanced (s.addHead p) fun x => d x - unit p x := by
  intro x
  have hcount : (s.addHead p).countAt x = s.countAt x := rfl
  rw [hcount, refs_addHead, h x]
  ring

/-- A new node that one pointer is going to lead to. -/
theorem Balanced.alloc (value : α) : Balanced (s.alloc ⟨p, 1, value⟩)
    fun x => d x + unit (some s.nodes.length) x - unit p x := by
  intro x
  have hcount : ((s.alloc ⟨p, 1, value⟩).countAt x : Int) =
      s.countAt x + unit (some s.nodes.length) x := by
    have hnone : s.countAt s.nodes.length = 0 := by
      unfold Store.countAt Store.node?
      rw [getElem?_eq_none (le_refl _)]
      rfl
    rw [unit_some]
    unfold Store.countAt
    rw [node?_alloc]
    split
    · next heq =>
      rw [if_pos heq.symm, heq, show (s.node? s.nodes.length) = none from ?_]
      · rfl
      · unfold Store.node?
        rw [getElem?_eq_none (le_refl _)]
        rfl
    · next hne => rw [if_neg (Ne.symm hne), Int.add_zero]
  rw [hcount, refs_alloc, h x]
  ring

theorem Balanced.free (hnode : s.node? a = some node) : Balanced (s.setNode a none)
      fun x => d x + unit node.next x - node.count.toNat * unit (some a) x := by
  intro x
  have hcount := countAt_setNode (node?_lt hnode) none x
  rw [countAt_of_node hnode] at hcount
  rw [hcount, refs_setNode hnode, h x]
  dsimp only [Option.map_none, Option.getD_none, Option.bind_none]
  rw [unit_none]
  push_cast
  ring

end

theorem pointers_place (hc : s.pointer c = some a) : s.pointers[s.place c]? = some (some a) := by
  unfold Store.pointers
  cases c with
  | head i =>
    have hi := join_eq_some_iff.mp hc
    obtain ⟨hlt, -⟩ := List.getElem?_eq_some_iff.mp hi
    exact (getElem?_append_left hlt).trans hi
  | next b =>
    obtain ⟨node, hnode, hnext⟩ := Option.bind_eq_some_iff.mp hc
    unfold Store.place
    rw [getElem?_append_right (Nat.le_add_right _ _), Nat.add_sub_cancel_left,
      getElem?_map, join_eq_some_iff.mp hnode]
    exact congrArg some hnext

theorem place_ne {c' : Cell} (hne : c ≠ c') (hc : s.pointer c = some a)
    (hc' : s.pointer c' = some b) : s.place c ≠ s.place c' := by
  have hlt {i x : Nat} (h : s.pointer (.head i) = some x) : i < s.heads.length :=
    (List.getElem?_eq_some_iff.mp (join_eq_some_iff.mp h)).1
  intro heq
  cases c with
  | head i =>
    cases c' with
    | head j => exact hne (congrArg Cell.head heq)
    | next y =>
      have hi := hlt hc
      have heq : i = s.heads.length + y := heq
      omega
  | next x =>
    cases c' with
    | head j =>
      have hj := hlt hc'
      have heq : s.heads.length + x = j := heq
      omega
    | next y => exact hne (congrArg Cell.next (Nat.add_left_cancel heq))

theorem refs_pos (hc : s.pointer c = some a) : 1 ≤ s.refs a :=
  count_pos_iff.mpr (mem_of_getElem? (pointers_place hc))

theorem two_le_refs {c' : Cell} (hne : c ≠ c') (hc : s.pointer c = some a)
    (hc' : s.pointer c' = some a) : 2 ≤ s.refs a := by
  have hcount := count_set_add (pointers_place hc) none (some a)
  have hleft : 1 ≤ (s.pointers.set (s.place c) none).count (some a) := by
    refine count_pos_iff.mpr (mem_of_getElem? (i := s.place c') ?_)
    rw [getElem?_set_ne (place_ne hne hc hc')]
    exact pointers_place hc'
  rw [beq_self_eq_true, if_pos rfl, show ((none : Option Nat) == some a) = false from rfl,
    if_neg Bool.false_ne_true] at hcount
  show 2 ≤ s.pointers.count (some a)
  omega

end Counts

/-! ## 4. Lists -/

section Lists

variable {α : Type} {s s' : Store α} {p q r : Option Nat} {list list' : List (Nat × α)} {a : Nat}

theorem Segment.pointer_after (h : Segment s p list q) (hc : s.pointer c = p) :
    s.pointer (cellAfter c list) = q := by
  induction h generalizing c with
  | nil => exact hc
  | cons hlink _ ih =>
    obtain ⟨node, hnode, hnext, -⟩ := node?_of_link hlink
    refine ih (c := .next _) ?_
    unfold Store.pointer
    dsimp only
    rw [hnode]
    exact hnext

theorem cellAfter_cases (c : Cell) (list : List (Nat × α)) :
    (list = [] ∧ cellAfter c list = c) ∨ ∃ x ∈ list, cellAfter c list = .next x.1 := by
  induction list generalizing c with
  | nil => exact .inl ⟨rfl, rfl⟩
  | cons x list ih =>
    rcases ih (.next x.1) with ⟨rfl, -⟩ | ⟨y, hy, heq⟩
    · exact .inr ⟨x, mem_cons_self, rfl⟩
    · exact .inr ⟨y, mem_cons_of_mem x hy, heq⟩

theorem cellAfter_concat (c : Cell) (list : List (Nat × α)) (x : Nat × α) :
    cellAfter c (list ++ [x]) = .next x.1 := by
  induction list generalizing c with
  | nil => rfl
  | cons y list ih => exact ih (.next y.1)

/-- Nodes that one pointer leads to are on no list that starts from elsewhere. -/
theorem Segment.exclusive {c' : Cell} (hc : s.pointer c = p) (h : Segment s p list q)
    (hsingle : ∀ x ∈ list, s.refs x.1 ≤ 1) {p' : Option Nat} (hc' : s.pointer c' = p')
    (h' : Segment s p' list' none) (hne : c ≠ c') (hhead : ∀ a, c' ≠ .next a)
    (hnext : ∀ y ∈ list', c ≠ .next y.1) : ∀ x ∈ list, ∀ y ∈ list', x.1 ≠ y.1 := by
  induction h generalizing c with
  | nil => exact fun x hx => absurd hx not_mem_nil
  | @cons a p q value list hlink _ ih =>
    obtain ⟨hself, hrest⟩ := forall_mem_cons.mp hsingle
    have hfirst : ∀ y ∈ list', a ≠ y.1 := by
      intro y hy heq
      obtain ⟨before, after, rfl⟩ := append_of_mem hy
      obtain ⟨q', hbefore, hafter⟩ := h'.split
      have hpointer : s.pointer (cellAfter c' before) = some a := by
        rw [hbefore.pointer_after hc']
        cases hafter with
        | cons _ _ => exact congrArg some heq.symm
      have hother : c ≠ cellAfter c' before := by
        rcases cellAfter_cases c' before with ⟨-, hsame⟩ | ⟨z, hz, hsame⟩
        · rw [hsame]
          exact hne
        · rw [hsame]
          exact hnext z (mem_append_left _ hz)
      exact absurd (two_le_refs hother hc hpointer) (Nat.not_le_of_lt (Nat.lt_succ_of_le hself))
    have hpointer : s.pointer (.next a) = p := by
      obtain ⟨node, hnode, hnode', -⟩ := node?_of_link hlink
      unfold Store.pointer
      dsimp only
      rw [hnode]
      exact hnode'
    refine forall_mem_cons.mpr ⟨hfirst, ih hpointer hrest (hhead a).symm fun y hy heq => ?_⟩
    cases heq
    exact hfirst y hy rfl

theorem link_setNext (q : Option Nat) (a x : Nat) : (s.setPointer q (.next a)).link x =
    if a = x then (s.link x).map fun link => (q, link.2) else s.link x := by
  unfold Store.setPointer
  dsimp only
  cases lt_or_ge a s.nodes.length with
  | inl hlt =>
    rw [link_setNode hlt]
    split
    · next heq =>
      rw [← heq]
      unfold Store.link
      cases s.node? a with
      | none => rfl
      | some node => rfl
    · rfl
  | inr hge =>
    have hnone : s.node? a = none := by
      unfold Store.node?
      rw [getElem?_eq_none hge]
      rfl
    have hsame : s.setNode a ((s.node? a).map fun node => { node with next := q }) = s := by
      unfold Store.setNode
      rw [set_eq_of_length_le hge]
    rw [hsame]
    split
    · next heq =>
      unfold Store.link
      rw [← heq, hnone]
      rfl
    · rfl

/-- A pointer at the end of nodes is changed. -/
theorem Segment.relink (h : Segment s p list q) (hnodup : (list.map Prod.fst).Nodup) (i : Nat)
    (r : Option Nat) : Segment (s.setPointer r (cellAfter (.head i) list))
      (if list = [] then r else p) list r := by
  suffices hgeneral : ∀ c : Cell, (∀ y, c = .next y → y ∉ list.map Prod.fst) →
      Segment (s.setPointer r (cellAfter c list)) (if list = [] then r else p) list r from
    hgeneral (.head i) fun y heq => by cases heq
  induction h with
  | nil p => exact fun c _ => .nil r
  | @cons a p q value list hlink rest ih =>
    intro c _
    obtain ⟨hself, hrest⟩ := nodup_cons.mp hnodup
    have htail := ih hrest (.next a) fun y heq => by
      cases heq
      exact hself
    rw [if_neg (cons_ne_nil _ _)]
    refine .cons ?_ htail
    cases list with
    | nil =>
      rw [if_pos rfl]
      show (s.setPointer r (.next a)).link a = _
      rw [link_setNext, if_pos rfl, hlink]
      rfl
    | cons x list =>
      rw [if_neg (cons_ne_nil _ _)]
      rcases cellAfter_cases (.next a) (x :: list) with ⟨hnil, -⟩ | ⟨y, hy, heq⟩
      · cases hnil
      · show (s.setPointer r (cellAfter (.next a) (x :: list))).link a = _
        rw [heq, link_setNext, if_neg, hlink]
        intro hya
        exact hself (mem_map.mpr ⟨y, hy, hya⟩)

/-- What the lists are read as. -/
structure Reads (s : Store α) (lists : List (List α)) : Prop where
  length : s.heads.length = lists.length
  list : ∀ i list, lists[i]? = some list →
    ∃ nodes, Segment s (s.pointer (.head i)) nodes none ∧ nodes.map Prod.snd = list

variable {lists : List (List α)} {node : Node α}

theorem Reads.congr (h : Reads s lists) (hheads : s'.heads = s.heads)
    (hlink : ∀ i nodes, Segment s (s.pointer (.head i)) nodes none →
      ∀ x ∈ nodes, s'.link x.1 = s.link x.1) : Reads s' lists := by
  refine ⟨hheads ▸ h.length, fun i list hi => ?_⟩
  obtain ⟨nodes, hnodes, hvals⟩ := h.list i list hi
  have hpointer : s'.pointer (.head i) = s.pointer (.head i) := by
    unfold Store.pointer
    dsimp only
    rw [hheads]
  exact ⟨nodes, hpointer ▸ hnodes.congr (hlink i nodes hnodes), hvals⟩

/-- A list from the same nodes with a pointer of its own that leads to others. -/
theorem Reads.relink (h : Reads s lists) {i : Nat} (hi : i < lists.length)
    {pre post : List (Nat × α)} (hpre : Segment s (s.pointer (.head i)) pre p)
    (hnodup : (pre.map Prod.fst).Nodup) (hsingle : ∀ x ∈ pre, s.refs x.1 ≤ 1)
    (hpost : Segment s r post none) (hdisjoint : ∀ x ∈ pre, ∀ y ∈ post, x.1 ≠ y.1) :
    Reads (s.setPointer r (cellAfter (.head i) pre)) (lists.set i ((pre ++ post).map Prod.snd)) ∧
      Segment (s.setPointer r (cellAfter (.head i) pre))
        ((s.setPointer r (cellAfter (.head i) pre)).pointer (.head i)) (pre ++ post) none := by
  have hlt : i < s.heads.length := h.length.symm ▸ hi
  generalize hs' : s.setPointer r (cellAfter (.head i) pre) = s'
  -- the links of nodes that are not in front of the pointer
  have hframe {x : Nat} (hx : ∀ y ∈ pre, y.1 ≠ x) : s'.link x = s.link x := by
    rw [← hs']
    rcases cellAfter_cases (.head i) pre with ⟨-, heq⟩ | ⟨y, hy, heq⟩
    · rw [heq]
      rfl
    · rw [heq, link_setNext, if_neg (hx y hy)]
  have hheads (j : Nat) : s'.pointer (.head j) =
      if pre = [] ∧ i = j then r else s.pointer (.head j) := by
    rw [← hs']
    rcases cellAfter_cases (.head i) pre with ⟨hnil, heq⟩ | ⟨y, hy, heq⟩
    · rw [heq]
      show (s.heads.set i r)[j]?.join = _
      rw [getElem?_set]
      split
      · next hij => rw [if_pos ⟨hnil, hij⟩]; rfl
      · next hij => rw [if_neg fun hand => hij hand.2]; rfl
    · rw [heq, if_neg fun hand => absurd (hand.1 ▸ hy) not_mem_nil]
      rfl
  have hlen : s'.heads.length = s.heads.length := by
    rw [← hs']
    rcases cellAfter_cases (.head i) pre with ⟨-, heq⟩ | ⟨y, -, heq⟩
    · rw [heq]
      exact length_set
    · rw [heq]
      rfl
  have hown : Segment s' (s'.pointer (.head i)) (pre ++ post) none := by
    have hfirst : Segment s' (if pre = [] then r else s.pointer (.head i)) pre r :=
      hs' ▸ hpre.relink hnodup i r
    have hstart : s'.pointer (.head i) = if pre = [] then r else s.pointer (.head i) := by
      rw [hheads]
      exact if_congr (and_iff_left rfl) rfl rfl
    rw [hstart]
    refine hfirst.append (hpost.congr fun y hy => hframe fun x hx heq => ?_)
    exact hdisjoint x hx y hy heq
  refine ⟨⟨?_, fun j list hj => ?_⟩, hown⟩
  · rw [hlen, length_set]
    exact h.length
  · rw [getElem?_set] at hj
    split at hj
    · next hij =>
      cases hj
      exact ⟨pre ++ post, hij ▸ hown, rfl⟩
    · next hij =>
      obtain ⟨nodes, hnodes, hvals⟩ := h.list j list hj
      have hpointer : s'.pointer (.head j) = s.pointer (.head j) := by
        rw [hheads, if_neg fun hand => hij hand.2]
      refine ⟨nodes, hpointer ▸ hnodes.congr fun y hy => hframe fun x hx heq => ?_, hvals⟩
      refine Segment.exclusive rfl hpre hsingle rfl hnodes (fun hsame => hij ?_)
        (fun a hsame => ?_) (fun y hy hsame => ?_) x hx y hy heq
      · cases hsame
        rfl
      · cases hsame
      · cases hsame

theorem Segment.mem_lt (h : Segment s p list none) {x : Nat × α} (hx : x ∈ list) :
    x.1 < s.nodes.length := by
  obtain ⟨before, after, -, hsuffix⟩ := h.suffix_of_mem hx
  obtain ⟨a, value⟩ := x
  cases hsuffix with
  | cons hlink _ =>
    obtain ⟨node, hnode, -⟩ := node?_of_link hlink
    exact node?_lt hnode

/-- A pointer to the first of some nodes leads to no other one. -/
theorem Segment.unit_eq_zero (h : Segment s p list none) (hx : ∀ y ∈ list, y.1 ≠ a) :
    unit p a = 0 := by
  cases h with
  | nil => exact unit_none a
  | @cons b _ _ value _ _ _ =>
    rw [unit_some, if_neg]
    exact hx (b, value) mem_cons_self

theorem Segment.setCount (h : Segment s p list q) (hnode : s.node? a = some node)
    (count : BitVec 32) : Segment (s.setCount a count) p list q :=
  h.congr fun x _ => link_setCount hnode count x.1

theorem Reads.setCount (h : Reads s lists) (hnode : s.node? a = some node) (count : BitVec 32) :
    Reads (s.setCount a count) lists :=
  h.congr rfl fun _ _ _ x _ => link_setCount hnode count x.1

theorem Segment.alloc (h : Segment s p list none) (node : Node α) :
    Segment (s.alloc node) p list none := by
  refine h.congr fun x hx => ?_
  rw [link_alloc, if_neg (ne_of_lt (h.mem_lt hx))]

theorem Reads.alloc (h : Reads s lists) (node : Node α) : Reads (s.alloc node) lists := by
  refine h.congr rfl fun i nodes hnodes x hx => ?_
  rw [link_alloc, if_neg (ne_of_lt (hnodes.mem_lt hx))]

/-- Another list with a pointer of its own. -/
theorem Reads.addHead (h : Reads s lists) (hnodes : Segment s p list none) :
    Reads (s.addHead p) (lists ++ [list.map Prod.snd]) := by
  constructor
  case length =>
    unfold Store.addHead
    rw [length_append, length_append, h.length]
    rfl
  case list =>
    intro i values hi
    rw [getElem?_append] at hi
    have hpointer : (s.addHead p).pointer (.head i) =
        if i < lists.length then s.pointer (.head i) else [p][i - lists.length]?.join := by
      unfold Store.pointer Store.addHead
      dsimp only
      rw [getElem?_append, h.length]
      split
      · rfl
      · rfl
    rw [hpointer]
    split at hi
    · next hlt =>
      obtain ⟨nodes, hnodes, hvals⟩ := h.list i values hi
      rw [if_pos hlt]
      exact ⟨nodes, hnodes.congr fun _ _ => rfl, hvals⟩
    · next hge =>
      rw [if_neg hge]
      cases hi' : i - lists.length with
      | zero =>
        rw [hi'] at hi
        cases hi
        exact ⟨list, hnodes.congr fun _ _ => rfl, rfl⟩
      | succ k =>
        rw [hi'] at hi
        cases hi

/-- A node that is on no list is freed. -/
theorem Reads.free (h : Reads s lists) (hnode : s.node? a = some node)
    (hout : ∀ i nodes, Segment s (s.pointer (.head i)) nodes none → ∀ x ∈ nodes, x.1 ≠ a) :
    Reads (s.setNode a none) lists := by
  refine h.congr rfl fun i nodes hnodes x hx => ?_
  rw [link_setNode (node?_lt hnode), if_neg (hout i nodes hnodes x hx).symm]

/-- The node is on no list if no pointer leads to it. -/
theorem Segment.not_mem_of_refs (h : Segment s p list none) (hc : s.pointer c = p)
    (hrefs : s.refs a = 0) : ∀ x ∈ list, x.1 ≠ a := by
  intro x hx heq
  obtain ⟨before, after, rfl⟩ := append_of_mem hx
  obtain ⟨q, hbefore, hafter⟩ := h.split
  have hpointer : s.pointer (cellAfter c before) = some a := by
    rw [hbefore.pointer_after hc]
    obtain ⟨b, value⟩ := x
    cases hafter with
    | cons _ _ => exact congrArg some heq
  exact absurd (refs_pos hpointer) (hrefs ▸ Nat.not_succ_le_zero 0)

theorem countAt_setCount (hnode : s.node? a = some node) (count : BitVec 32) (x : Nat) :
    (s.setCount a count).countAt x = if a = x then count.toNat else s.countAt x := by
  unfold Store.countAt
  rw [node?_setCount hnode]
  split
  · rfl
  · rfl

theorem countAt_alloc (node : Node α) (x : Nat) : (s.alloc node).countAt x =
    if x = s.nodes.length then node.count.toNat else s.countAt x := by
  unfold Store.countAt
  rw [node?_alloc]
  split
  · rfl
  · rfl

theorem countAt_setPointer (q : Option Nat) (c : Cell) (x : Nat) :
    (s.setPointer q c).countAt x = s.countAt x := by
  cases c with
  | head i => rfl
  | next b =>
    cases hnode : s.node? b with
    | some node =>
      have hcount := countAt_setNode (node?_lt hnode)
        ((s.node? b).map fun node => { node with next := q }) x
      rw [hnode, map_some, map_some, getD_some, countAt_of_node hnode,
        Int.sub_self, Int.zero_mul, Int.add_zero] at hcount
      unfold Store.setPointer
      dsimp only
      rw [hnode]
      exact Int.ofNat.inj hcount
    | none =>
      have hnone : s.nodes[b]?.join = none := hnode
      unfold Store.setPointer Store.countAt
      dsimp only
      rw [hnode]
      unfold Store.node? Store.setNode
      dsimp only
      rw [getElem?_set]
      split
      · next heq =>
        rw [← heq, hnone]
        split
        · rfl
        · rfl
      · rfl

/-- A node at the end of nodes that one pointer leads to has another value. -/
theorem Reads.setValue (h : Reads s lists) {i : Nat} (hi : i < lists.length)
    {pre post : List (Nat × α)}
    (hsegment : Segment s (s.pointer (.head i)) (pre ++ (a, node.value) :: post) none)
    (hnode : s.node? a = some node) (hsingle : ∀ x ∈ pre, s.refs x.1 ≤ 1) (hself : s.refs a ≤ 1)
    (value : α) : Reads (s.setNode a (some { node with value := value }))
      (lists.set i ((pre ++ (a, value) :: post).map Prod.snd)) := by
  have hlink (x : Nat) : (s.setNode a (some { node with value := value })).link x =
      if a = x then some (node.next, value) else s.link x := link_setNode (node?_lt hnode) _ x
  have hnodup := hsegment.nodup
  rw [map_append, map_cons, nodup_append, nodup_cons] at hnodup
  obtain ⟨-, ⟨hafter, -⟩, hbefore⟩ := hnodup
  refine ⟨?_, fun j list hj => ?_⟩
  · rw [length_set]
    exact h.length
  · rw [getElem?_set] at hj
    split at hj
    · next hij =>
      cases hj
      obtain ⟨q, hpre, hrest⟩ := hsegment.split
      refine ⟨pre ++ (a, value) :: post, hij ▸ Segment.append (q := some a) ?_ ?_, rfl⟩
      · cases hrest with
        | cons _ _ =>
          refine hpre.congr fun x hx => ?_
          rw [hlink, if_neg]
          intro heq
          exact hbefore x.1 (mem_map_of_mem hx) a mem_cons_self heq.symm
      · cases hrest with
        | @cons _ p _ _ _ hself rest =>
          obtain ⟨node', hnode', hnext, -⟩ := node?_of_link hself
          rw [hnode] at hnode'
          cases hnode'
          refine .cons (p := p) ?_ (rest.congr fun x hx => ?_)
          · rw [hlink, if_pos rfl, hnext]
          · rw [hlink, if_neg]
            intro heq
            exact hafter (mem_map.mpr ⟨x, hx, heq.symm⟩)
    · next hij =>
      obtain ⟨nodes, hnodes, hvals⟩ := h.list j list hj
      refine ⟨nodes, hnodes.congr fun x hx => ?_, hvals⟩
      rw [hlink, if_neg]
      have hwhole : Segment s (s.pointer (.head i)) ((pre ++ [(a, node.value)]) ++ post) none := by
        rw [append_assoc]
        exact hsegment
      obtain ⟨q, hpre, -⟩ := hwhole.split
      refine Segment.exclusive rfl hpre (fun y hy => ?_) rfl hnodes (fun hsame => hij ?_)
        (fun b hsame => ?_) (fun y hy hsame => ?_) (a, node.value)
        (mem_append_right _ mem_cons_self) x hx
      · cases mem_append.mp hy with
        | inl hmem => exact hsingle y hmem
        | inr hmem => exact (mem_singleton.mp hmem) ▸ hself
      · cases hsame
        rfl
      · cases hsame
      · cases hsame

end Lists

end SharedLists
