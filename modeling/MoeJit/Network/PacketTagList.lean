import MoeJit.Lib.FallibleRun
import MoeJit.Lib.SharedLists

/-!
# Packet tag lists

The tags of a packet are a linked list of `TagData`, and copies of a list share its nodes. Adding a
tag puts a node in front. Removing and replacing one change the nodes that no other list has in
place, and copy those from the first shared one up to the tag.

Each list is a map of its own from types to tags, whatever is done with the others, as long as the
32 bits of the counts do not overflow (`persistent_of_run`). When as many pointers lead to a node
as the count can tell, a list removes the node of another one (`count_begins_again`).

All lists of a run are in one store, and a list is its index in it. A node that is freed cannot be
read any more.
-/

namespace MoeJit.PacketTagList

open SharedLists List Function
open BitVec (le_def lt_def ofNat toNat_sub)
open Store (node? pointer setNode)

/-! ## 1. Model -/

/-- A tag as it is serialized. `CreateTagData` asserts that it is not larger. -/
structure Tag where
  tid : Nat
  data : List (BitVec 8)
  small : data.length < 0xffffffff
  deriving DecidableEq

abbrev TagData := Node Tag

abbrev PacketTagLists := Store Tag

/-- A pointer that cannot be read, or an assertion that fails. -/
inductive Failure
  | invalid
  deriving DecidableEq

/-- The tag is serialized into the buffer of another one. -/
def Tag.over (old tag : Tag) : Except Failure Tag :=
  if h : tag.data.length ≤ old.data.length then
    .ok ⟨old.tid, tag.data ++ old.data.drop tag.data.length, by
      rw [List.length_append, List.length_drop, Nat.add_sub_cancel' h]
      exact old.small⟩
  else .error .invalid

section Model

variable (s : PacketTagLists)

def read (a : Nat) : Except Failure TagData :=
  match s.node? a with
  | none => .error .invalid
  | some node => .ok node

/-- The pointer of a list. -/
def next (i : Nat) : Option Nat := s.pointer (.head i)

/-- Enough rounds for the loops over a list. -/
def rounds : Nat := s.nodes.length + 1

/-- One more pointer leads to a node, if it is one. -/
def merge : Option Nat → Except Failure PacketTagLists
  | none => .ok s
  | some a => do
    let node ← read s a
    return s.setCount a (node.count + 1)

/-- The node of a type, if there is one. -/
def find (tid : Nat) : Nat → Option Nat → Except Failure (Option TagData)
  | 0, _ => .error .invalid
  | _ + 1, none => .ok none
  | n + 1, some cur => do
    let node ← read s cur
    if node.value.tid = tid then return some node else find tid n node.next

/-- From the head of the list until the type or a merge is found, with whether it is the type. -/
def search (tid : Nat) : Nat → Cell → Option Nat → Except Failure (Cell × Option Nat × Bool)
  | 0, _, _ => .error .invalid
  | _ + 1, prevNext, none => .ok (prevNext, none, false)
  | n + 1, prevNext, some cur => do
    let node ← read s cur
    if 1 < node.count then return (prevNext, some cur, false)
    else if node.value.tid = tid then return (prevNext, some cur, true)
    else search tid n (.next cur) node.next

end Model

/-- A merge is replaced by a copy, and the next node becomes the merge. -/
def copyNode (s : PacketTagLists) (prevNext : Cell) (cur : Nat) :
    Except Failure (PacketTagLists × Cell × Nat) := do
  let node ← read s cur
  let copy := s.nodes.length
  let s := (s.setCount cur (node.count - 1)).alloc ⟨node.next, 1, node.value⟩
  match node.next with
  | none => throw .invalid
  | some next =>
    let s ← merge s (some next)
    return (s.setPointer (some copy) prevNext, .next copy, next)

def copyUntil (tid : Nat) : Nat → PacketTagLists → Cell → Nat →
    Except Failure (PacketTagLists × Cell × Nat)
  | 0, _, _, _ => .error .invalid
  | n + 1, s, prevNext, cur => do
    let node ← read s cur
    if node.count ≤ 1 then throw .invalid
    else if node.value.tid = tid then return (s, prevNext, cur)
    else
      let (s, prevNext, cur) ← copyNode s prevNext cur
      copyUntil tid n s prevNext cur

/-- What is done with the node of the type: the tag, whether the node is before the first merge, the
node and the pointer to it. -/
abbrev COWWriter :=
  PacketTagLists → Tag → Bool → Nat → Cell → Except Failure (PacketTagLists × Tag)

def cowTraverse (s : PacketTagLists) (i : Nat) (tag : Tag) (writer : COWWriter) :
    Except Failure (PacketTagLists × Tag × Bool) := do
  let (prevNext, cur, found) ← search s tag.tid (rounds s) (.head i) (next s i)
  match cur with
  | none => return (s, tag, false)
  | some cur =>
    if found then
      let (s, tag) ← writer s tag true cur prevNext
      return (s, tag, true)
    else
      let it ← find s tag.tid (rounds s) (some cur)
      if it.isNone then return (s, tag, false)
      else
        let (s, prevNext, cur) ← copyUntil tag.tid (rounds s) s prevNext cur
        let (s, tag) ← writer s tag false cur prevNext
        return (s, tag, true)

def removeWriter : COWWriter := fun s _ preMerge cur prevNext => do
  let node ← read s cur
  let s := s.setPointer node.next prevNext
  if preMerge then return (s.setNode cur none, node.value)
  else
    let s ← merge (s.setCount cur (node.count - 1)) node.next
    return (s, node.value)

def replaceWriter : COWWriter := fun s tag preMerge cur prevNext => do
  let node ← read s cur
  if preMerge then
    let value ← node.value.over tag
    return (s.setNode cur (some { node with value := value }), tag)
  else
    let copy := s.nodes.length
    let s ← merge ((s.setCount cur (node.count - 1)).alloc ⟨node.next, 1, tag⟩) node.next
    return (s.setPointer (some copy) prevNext, tag)

def remove (s : PacketTagLists) (i : Nat) (tag : Tag) :
    Except Failure (PacketTagLists × Tag × Bool) :=
  cowTraverse s i tag removeWriter

def add (s : PacketTagLists) (i : Nat) (tag : Tag) : Except Failure PacketTagLists := do
  let it ← find s tag.tid (rounds s) (next s i)
  if it.isSome then throw .invalid
  else return (s.alloc ⟨next s i, 1, tag⟩).setPointer (some s.nodes.length) (.head i)

def replace (s : PacketTagLists) (i : Nat) (tag : Tag) :
    Except Failure (PacketTagLists × Tag × Bool) := do
  let (s, tag, found) ← cowTraverse s i tag replaceWriter
  if found then return (s, tag, true)
  else
    let s ← add s i tag
    return (s, tag, false)

def peek (s : PacketTagLists) (i : Nat) (tag : Tag) : Except Failure (Tag × Bool) := do
  let it ← find s tag.tid (rounds s) (next s i)
  return (((it.map Node.value).getD tag), it.isSome)

/-- `prev`, if there is one, is freed. -/
def free (s : PacketTagLists) : Option Nat → PacketTagLists
  | none => s
  | some prev => s.setNode prev none

def removeFrom : Nat → PacketTagLists → Option Nat → Option Nat → Except Failure PacketTagLists
  | 0, _, _, _ => .error .invalid
  | _ + 1, s, prev, none => .ok (free s prev)
  | n + 1, s, prev, some cur => do
    let node ← read s cur
    let s := s.setCount cur (node.count - 1)
    if 0 < node.count - 1 then return free s prev
    else removeFrom n (free s prev) (some cur) node.next

def removeAll (s : PacketTagLists) (i : Nat) : Except Failure PacketTagLists := do
  let s ← removeFrom (rounds s) s none (next s i)
  return s.setHead i none

/-- The constructor of an empty list. -/
def construct (s : PacketTagLists) : PacketTagLists := s.addHead none

/-- The copy constructor. -/
def copy (s : PacketTagLists) (o : Nat) : Except Failure PacketTagLists :=
  merge (s.addHead (next s o)) (next s o)

/-- `operator=`. -/
def assign (s : PacketTagLists) (i o : Nat) : Except Failure PacketTagLists :=
  if next s i = next s o then .ok s
  else do
    let s ← removeAll s i
    merge (s.setHead i (next s o)) (next s o)

inductive Action
  | construct
  | copy (o : Nat)
  | assign (i o : Nat)
  | add (i : Nat) (tag : Tag)
  | remove (i : Nat) (tag : Tag)
  | replace (i : Nat) (tag : Tag)
  | peek (i : Nat) (tag : Tag)
  | removeAll (i : Nat)

/-- A call, with the tag and whether it was found. -/
def perform (s : PacketTagLists) : Action → Except Failure (PacketTagLists × Option (Tag × Bool))
  | .construct => .ok (construct s, none)
  | .copy o => (copy s o).map fun s => (s, none)
  | .assign i o => (assign s i o).map fun s => (s, none)
  | .add i tag => (add s i tag).map fun s => (s, none)
  | .remove i tag => (remove s i tag).map fun result => (result.1, some result.2)
  | .replace i tag => (replace s i tag).map fun result => (result.1, some result.2)
  | .peek i tag => (peek s i tag).map fun result => (s, some result)
  | .removeAll i => (removeAll s i).map fun s => (s, none)

/-! ## 2. Statement -/

/-- The tag of each type, if there is one. -/
abbrev TagMap := Nat → Option Tag

def emptyMap : TagMap := fun _ => none

def TagMap.put (map : TagMap) (tid : Nat) (tag : Option Tag) : TagMap := Function.update map tid tag

/-- The map of a list, which is empty for an index out of range. -/
def mapAt (maps : List TagMap) (i : Nat) : TagMap := maps.getD i emptyMap

/-- What a call does to independent maps, and what it returns. -/
def onMaps (maps : List TagMap) : Action → List TagMap × Option (Tag × Bool)
  | .construct => (maps ++ [emptyMap], none)
  | .copy o => (maps ++ [mapAt maps o], none)
  | .assign i o => (maps.set i (mapAt maps o), none)
  | .add i tag => (maps.set i ((mapAt maps i).put tag.tid (some tag)), none)
  | .remove i tag => (maps.set i ((mapAt maps i).put tag.tid none),
      some ((mapAt maps i tag.tid).getD tag, (mapAt maps i tag.tid).isSome))
  | .replace i tag => (maps.set i ((mapAt maps i).put tag.tid (some tag)),
      some (tag, (mapAt maps i tag.tid).isSome))
  | .peek i tag => (maps, some ((mapAt maps i tag.tid).getD tag, (mapAt maps i tag.tid).isSome))
  | .removeAll i => (maps.set i emptyMap, none)

/-- A call, with the maps beside the lists. -/
def step (x : PacketTagLists × List TagMap) (action : Action) :
    Except Failure (PacketTagLists × List TagMap) :=
  (perform x.1 action).map fun result => (result.1, (onMaps x.2 action).1)

/-- The lists exist, a tag that is added is not present, and one that is replaced has the same
size. -/
def Proper (maps : List TagMap) : Action → Prop
  | .construct => True
  | .copy o => o < maps.length
  | .assign i o => i < maps.length ∧ o < maps.length
  | .add i tag => i < maps.length ∧ mapAt maps i tag.tid = none
  | .remove i _ => i < maps.length
  | .replace i tag => i < maps.length ∧
      ∀ old ∈ mapAt maps i tag.tid, tag.data.length = old.data.length
  | .peek i _ => i < maps.length
  | .removeAll i => i < maps.length

instance decidableProper (maps : List TagMap) : ∀ action, Decidable (Proper maps action)
  | .construct => isTrue trivial
  | .copy o => inferInstanceAs (Decidable (o < maps.length))
  | .assign i o => inferInstanceAs (Decidable (i < maps.length ∧ o < maps.length))
  | .add i tag => inferInstanceAs (Decidable (i < maps.length ∧ mapAt maps i tag.tid = none))
  | .remove i _ => inferInstanceAs (Decidable (i < maps.length))
  | .replace i tag => inferInstanceAs (Decidable (i < maps.length ∧
      ∀ old ∈ mapAt maps i tag.tid, tag.data.length = old.data.length))
  | .peek i _ => inferInstanceAs (Decidable (i < maps.length))
  | .removeAll i => inferInstanceAs (Decidable (i < maps.length))

/-- The counts have room for one more pointer. -/
def Roomy (s : PacketTagLists) : Prop := ∀ a < s.nodes.length, s.refs a + 1 < 2 ^ 32

instance (s : PacketTagLists) : Decidable (Roomy s) :=
  inferInstanceAs (Decidable (∀ a < s.nodes.length, s.refs a + 1 < 2 ^ 32))

/-- Each list is a map of its own, calls return what they return on the maps, and the counts are the
numbers of pointers. -/
structure Persistent (x : PacketTagLists × List TagMap) : Prop where
  length : x.1.heads.length = x.2.length
  maps : ∀ i < x.2.length, ∀ tag, peek x.1 i tag =
    .ok ((mapAt x.2 i tag.tid).getD tag, (mapAt x.2 i tag.tid).isSome)
  result : ∀ action, Proper x.2 action → Roomy x.1 →
    ∃ s, perform x.1 action = .ok (s, (onMaps x.2 action).2)
  counts : ∀ a node, x.1.node? a = some node → node.count.toNat = x.1.refs a

/-! ## 3. The lists and their nodes -/

/-- The counts are right and the lists are read as `lists`. -/
structure Sound (s : PacketTagLists) (lists : List (List Tag)) : Prop where
  balanced : Balanced s fun _ => 0
  reads : Reads s lists

section Nodes

variable {s : PacketTagLists} {lists : List (List Tag)} {nodes pre post : List (Nat × Tag)}
  {p : Option Nat} {tid a i : Nat} {node : TagData}

theorem read_ok (hnode : s.node? a = some node) : read s a = .ok node := by
  unfold read
  rw [hnode]

theorem Sound.countAt (h : Sound s lists) (a : Nat) : s.countAt a = s.refs a := by
  have hcount : (s.countAt a : Int) = s.refs a + 0 := h.balanced a
  omega

theorem countAt_length (s : PacketTagLists) : s.countAt s.nodes.length = 0 := by
  unfold Store.countAt node?
  rw [getElem?_eq_none (le_refl _)]
  rfl

theorem find_ok (tid : Nat) (h : Segment s p nodes none) {n : Nat} (hn : nodes.length < n) :
    ∃ it, find s tid n p = .ok it ∧
      it.map Node.value = (nodes.map Prod.snd).find? fun tag => tag.tid = tid := by
  induction nodes generalizing p n with
  | nil =>
    cases n with
    | zero => exact absurd hn (Nat.not_lt_zero _)
    | succ n =>
      cases h with
      | nil => exact ⟨none, rfl, rfl⟩
  | cons x nodes ih =>
    cases n with
    | zero => exact absurd hn (Nat.not_lt_zero _)
    | succ n =>
      cases h with
      | cons hlink rest =>
        obtain ⟨node, hnode, hnext, hval⟩ := node?_of_link hlink
        unfold find
        rw [read_ok hnode]
        dsimp only [bind, Except.bind]
        rw [map_cons, find?_cons, hval]
        split
        · next heq =>
          rw [decide_eq_true heq]
          exact ⟨some node, rfl, congrArg some hval⟩
        · next hne =>
          rw [decide_eq_false hne, hnext]
          exact ih rest (Nat.lt_of_succ_lt_succ hn)

/-- The search stops behind nodes that are neither merges nor of the type. -/
theorem search_ok (tid : Nat) (h : Segment s p nodes none) {n : Nat} (hn : nodes.length < n) (c : Cell) :
    ∃ pre post found, nodes = pre ++ post ∧
      search s tid n c p = .ok (cellAfter c pre, post.head?.map Prod.fst, found) ∧
      (∀ x ∈ pre, x.2.tid ≠ tid ∧ s.countAt x.1 ≤ 1) ∧
      ∀ x ∈ post.head?, (found = true → x.2.tid = tid ∧ s.countAt x.1 ≤ 1) ∧
        (found = false → 1 < s.countAt x.1) := by
  induction nodes generalizing p n c with
  | nil =>
    cases n with
    | zero => exact absurd hn (Nat.not_lt_zero _)
    | succ n =>
      cases h with
      | nil =>
        refine ⟨[], [], false, rfl, rfl, forall_mem_nil _, fun x hx => ?_⟩
        cases hx
  | cons x nodes ih =>
    cases n with
    | zero => exact absurd hn (Nat.not_lt_zero _)
    | succ n =>
      cases h with
      | @cons a q _ value _ hlink rest =>
        obtain ⟨node, hnode, hnext, hval⟩ := node?_of_link hlink
        have hcount := countAt_of_node hnode
        unfold search
        rw [read_ok hnode]
        dsimp only [bind, Except.bind]
        split
        · next hmerge =>
          refine ⟨[], _, false, rfl, rfl, forall_mem_nil _, fun y hy => ?_⟩
          cases hy
          refine ⟨fun heq => ?_, fun _ => hcount ▸ lt_def.mp hmerge⟩
          cases heq
        · next hsingle =>
          have hle : s.countAt a ≤ 1 := hcount ▸ le_def.mp (BitVec.not_lt.mp hsingle)
          split
          · next heq =>
            refine ⟨[], _, true, rfl, rfl, forall_mem_nil _, fun y hy => ?_⟩
            cases hy
            exact ⟨fun _ => ⟨hval ▸ heq, hle⟩, fun heq => by cases heq⟩
          · next hne =>
            obtain ⟨pre, post, found, rfl, hsearch, hpre, hpost⟩ :=
              ih rest (Nat.lt_of_succ_lt_succ hn) (.next a)
            rw [hnext, hsearch]
            exact ⟨(a, value) :: pre, post, found, rfl, rfl,
              forall_mem_cons.mpr ⟨⟨hval ▸ hne, hle⟩, hpre⟩, hpost⟩

theorem Sound.exists_nodes (h : Sound s lists) (hi : i < lists.length) :
    ∃ nodes, Segment s (next s i) nodes none ∧ nodes.map Prod.snd = lists[i] :=
  h.reads.list i lists[i] (getElem?_eq_getElem hi)

theorem Sound.head (h : Sound s lists) (hi : i < lists.length) : s.heads[i]? = some (next s i) := by
  have hlt : i < s.heads.length := h.reads.length.symm ▸ hi
  unfold next pointer
  dsimp only
  rw [getElem?_eq_getElem hlt]
  rfl

theorem Sound.set_self (h : Sound s lists) (hnodes : Segment s (next s i) nodes none)
    (hi : i < lists.length) : lists.set i (nodes.map Prod.snd) = lists := by
  obtain ⟨nodes', hnodes', hvals⟩ := h.exists_nodes hi
  rw [hnodes.unique hnodes', hvals, set_getElem_self]

/-- The list `i` in parts: nodes before the first merge or the node of the type, which is `a`, and
those after it, which have room for one more pointer. -/
structure Located (s : PacketTagLists) (lists : List (List Tag)) (i tid : Nat) (preMerge : Bool)
    (pre : List (Nat × Tag)) (a : Nat) (tag : Tag) (post : List (Nat × Tag)) : Prop where
  sound : Sound s lists
  index : i < lists.length
  segment : Segment s (next s i) (pre ++ (a, tag) :: post) none
  single : ∀ x ∈ pre, x.2.tid ≠ tid ∧ s.countAt x.1 ≤ 1
  self : if preMerge then tag.tid = tid ∧ s.countAt a ≤ 1 else 1 < s.countAt a
  room : ∀ x ∈ post, s.countAt x.1 + 1 < 2 ^ 32

variable {preMerge : Bool} {tag : Tag}

section

variable (h : Located s lists i tid preMerge pre a tag post)
include h

theorem Located.refs_single :
    ∀ x ∈ pre, s.refs x.1 ≤ 1 := fun x hx => h.sound.countAt x.1 ▸ (h.single x hx).2

theorem Located.disjoint : (pre.map Prod.fst).Nodup ∧ (∀ x ∈ pre, x.1 ≠ a) ∧ (∀ y ∈ post, y.1 ≠ a) ∧
      ∀ x ∈ pre, ∀ y ∈ post, x.1 ≠ y.1 := by
  have hnodup := h.segment.nodup
  rw [map_append, map_cons, nodup_append, nodup_cons] at hnodup
  obtain ⟨hpre, ⟨hself, -⟩, hboth⟩ := hnodup
  refine ⟨hpre, fun x hx => ?_, fun y hy heq => ?_, fun x hx y hy => ?_⟩
  · exact hboth x.1 (mem_map_of_mem hx) a mem_cons_self
  · exact hself (mem_map.mpr ⟨y, hy, heq⟩)
  · exact hboth x.1 (mem_map_of_mem hx) y.1 (mem_cons_of_mem a (mem_map_of_mem hy))

theorem Located.exists_node :
    ∃ node, s.node? a = some node ∧ node.value = tag ∧ Segment s (next s i) pre (some a) ∧
      Segment s node.next post none ∧ s.pointer (cellAfter (.head i) pre) = some a := by
  obtain ⟨q, hpre, hrest⟩ := h.segment.split
  cases hrest with
  | cons hlink rest =>
    obtain ⟨node, hnode, rfl, hval⟩ := node?_of_link hlink
    exact ⟨node, hnode, hval, hpre, rest, hpre.pointer_after rfl⟩

end

theorem node?_setPointer {c : Cell} (hc : c ≠ .next a) (q : Option Nat) :
    (s.setPointer q c).node? a = s.node? a := by
  cases c with
  | head j => rfl
  | next b =>
    unfold Store.setPointer node? setNode
    dsimp only
    rw [getElem?_set_ne]
    intro heq
    exact hc (congrArg Cell.next heq)

theorem cellAfter_ne {pre : List (Nat × Tag)} (hpre : ∀ x ∈ pre, x.1 ≠ a) :
    cellAfter (.head i) pre ≠ .next a := by
  intro heq
  rcases cellAfter_cases (.head i) pre with ⟨-, hsame⟩ | ⟨x, hx, hsame⟩
  · rw [hsame] at heq
    cases heq
  · rw [hsame] at heq
    exact hpre x hx (Cell.next.inj heq)

/-- One more pointer leads to a node. -/
structure Merged (s s' : PacketTagLists) (q : Option Nat) : Prop where
  heads : s'.heads = s.heads
  link : ∀ x, s'.link x = s.link x
  balanced : ∀ d, Balanced s d → Balanced s' fun x => d x + unit q x
  countAt : ∀ x, (s'.countAt x : Int) = s.countAt x + unit q x

theorem merge_ok {q : Option Nat} (h : Segment s q nodes none)
    (hroom : ∀ x ∈ nodes.head?, s.countAt x.1 + 1 < 2 ^ 32) :
    ∃ s', merge s q = .ok s' ∧ Merged s s' q := by
  cases h with
  | nil =>
    refine ⟨s, rfl, rfl, fun _ => rfl, fun d hd => hd.congr fun x => ?_, fun x => ?_⟩
    · rw [unit_none, Int.add_zero]
    · rw [unit_none, Int.add_zero]
  | @cons b _ _ value _ hlink _ =>
    obtain ⟨node, hnode, -⟩ := node?_of_link hlink
    have hlt : node.count.toNat + 1 < 2 ^ 32 := by
      rw [← countAt_of_node hnode]
      exact hroom (b, value) rfl
    refine ⟨s.setCount b (node.count + 1), ?_, rfl, link_setCount hnode _,
      fun d hd => hd.inc hnode hlt, fun x => ?_⟩
    · unfold merge
      dsimp only
      rw [read_ok hnode]
      rfl
    · rw [countAt_setCount hnode, unit_some]
      split
      · next heq =>
        rw [← heq, countAt_of_node hnode, BitVec.toNat_add]
        exact congrArg Int.ofNat (Nat.mod_eq_of_lt hlt)
      · exact (Int.add_zero _).symm

theorem Located.unshare (h : Located s lists i tid false pre a tag post)
    (hnode : s.node? a = some node) (value : Tag) :
    ∃ s', merge ((s.setCount a (node.count - 1)).alloc ⟨node.next, 1, value⟩) node.next = .ok s' ∧
      Sound (s'.setPointer (some s.nodes.length) (cellAfter (.head i) pre))
        (lists.set i ((pre ++ (s.nodes.length, value) :: post).map Prod.snd)) ∧
      Segment (s'.setPointer (some s.nodes.length) (cellAfter (.head i) pre))
        (next (s'.setPointer (some s.nodes.length) (cellAfter (.head i) pre)) i)
        (pre ++ (s.nodes.length, value) :: post) none ∧
      ∀ x, ((s'.setPointer (some s.nodes.length) (cellAfter (.head i) pre)).countAt x : Int) =
        s.countAt x - unit (some a) x + unit (some s.nodes.length) x + unit node.next x := by
  obtain ⟨node', hnode', hval, hpre, hpost, hpointer⟩ := h.exists_node
  rw [hnode] at hnode'
  cases hnode'
  obtain ⟨hnodup, hbefore, hafter, hdisjoint⟩ := h.disjoint
  have hlt := node?_lt hnode
  have hmerge : 1 < s.countAt a := h.self
  have hpos : 0 < node.count.toNat := by
    rw [← countAt_of_node hnode]
    exact Nat.lt_of_succ_lt hmerge
  generalize hs₁ : s.setCount a (node.count - 1) = s₁
  have hlen : s₁.nodes.length = s.nodes.length := by
    rw [← hs₁]
    exact length_set
  generalize hs₂ : s₁.alloc ⟨node.next, 1, value⟩ = s₂
  have hlink (x : Nat) : s₂.link x =
      if x = s.nodes.length then some (node.next, value) else s.link x := by
    rw [← hs₂, link_alloc, hlen, ← hs₁, link_setCount hnode]
  have hcount (x : Nat) : (s₂.countAt x : Int) =
      s.countAt x - unit (some a) x + unit (some s.nodes.length) x := by
    rw [← hs₂, countAt_alloc, hlen, unit_some, unit_some]
    split
    · next heq =>
      rw [heq, countAt_length, if_neg (ne_of_lt hlt), if_pos rfl]
      rfl
    · next hne =>
      rw [if_neg (Ne.symm hne), ← hs₁, countAt_setCount hnode]
      split
      · next heq =>
        have hone : (1 : BitVec 32).toNat = 1 := rfl
        have hbound := node.count.isLt
        rw [← heq, countAt_of_node hnode, toNat_sub, hone]
        omega
      · omega
  have hsame {list : List (Nat × Tag)} {p q : Option Nat} (hlist : ∀ x ∈ list, x.1 < s.nodes.length)
      (hsegment : Segment s p list q) : Segment s₂ p list q := by
    refine hsegment.congr fun x hx => ?_
    rw [hlink, if_neg (ne_of_lt (hlist x hx))]
  have hpre_lt : ∀ x ∈ pre, x.1 < s.nodes.length :=
    fun x hx => h.segment.mem_lt (mem_append_left _ hx)
  have hpost₂ := hsame (fun x hx => hpost.mem_lt hx) hpost
  have hzero {x : Nat} (ha : x ≠ a) (hnew : x ≠ s.nodes.length) : s₂.countAt x = s.countAt x := by
    have hx := hcount x
    rw [unit_some, unit_some, if_neg (Ne.symm ha), if_neg (Ne.symm hnew)] at hx
    omega
  have hroom : ∀ x ∈ post.head?, s₂.countAt x.1 + 1 < 2 ^ 32 := by
    intro x hx
    have hmem := mem_of_head? hx
    rw [hzero (hafter x hmem) (ne_of_lt (hpost.mem_lt hmem))]
    exact h.room x hmem
  obtain ⟨s₃, hok, hmerged⟩ := merge_ok hpost₂ hroom
  have hbalanced : Balanced s₃ fun x => 0 - unit (some a) x + unit (some s.nodes.length) x := by
    have hdec := h.sound.balanced.dec hnode hpos
    rw [hs₁] at hdec
    have halloc := hdec.alloc (p := node.next) value
    rw [hs₂, hlen] at halloc
    exact (hmerged.balanced _ halloc).congr fun x => by ring
  have hreads : Reads s₃ lists := by
    have hreads₂ : Reads s₂ lists := hs₂ ▸ hs₁ ▸ (h.sound.reads.setCount hnode _).alloc _
    exact hreads₂.congr hmerged.heads fun _ _ _ x _ => hmerged.link x.1
  have hheads : s₃.pointer (.head i) = s.pointer (.head i) := by
    have hheads₂ : s₂.heads = s.heads := by
      rw [← hs₂, ← hs₁]
      rfl
    unfold pointer
    dsimp only
    rw [hmerged.heads, hheads₂]
  have hpre₃ : Segment s₃ (s₃.pointer (.head i)) pre (some a) := by
    rw [hheads]
    exact (hsame hpre_lt hpre).congr fun x _ => hmerged.link x.1
  have hsingle : ∀ x ∈ pre, s₃.refs x.1 ≤ 1 := by
    intro x hx
    have hle := (h.single x hx).2
    have hcount₃ := hmerged.countAt x.1
    have hrefs : (s₃.countAt x.1 : Int) = s₃.refs x.1 +
        (0 - unit (some a) x.1 + unit (some s.nodes.length) x.1) := hbalanced x.1
    have hnext : unit node.next x.1 = 0 := hpost.unit_eq_zero fun y hy => (hdisjoint x hx y hy).symm
    rw [hzero (hbefore x hx) (ne_of_lt (hpre_lt x hx))] at hcount₃
    rw [unit_some, unit_some, if_neg (hbefore x hx).symm,
      if_neg (ne_of_lt (hpre_lt x hx)).symm] at hrefs
    omega
  have hnew : Segment s₃ (some s.nodes.length) ((s.nodes.length, value) :: post) none := by
    refine .cons ?_ (hpost₂.congr fun x _ => hmerged.link x.1)
    rw [hmerged.link, hlink, if_pos rfl]
  have hapart : ∀ x ∈ pre, ∀ y ∈ (s.nodes.length, value) :: post, x.1 ≠ y.1 := by
    intro x hx y hy
    cases mem_cons.mp hy with
    | inl heq => exact heq ▸ ne_of_lt (hpre_lt x hx)
    | inr hmem => exact hdisjoint x hx y hmem
  obtain ⟨hreads₄, hown⟩ := hreads.relink h.index hpre₃ hnodup hsingle hnew hapart
  refine ⟨s₃, hok, ⟨?_, hreads₄⟩, hown, fun x => ?_⟩
  · exact (hbalanced.setPointer (hpre₃.pointer_after rfl) _).congr fun x => by ring
  · rw [countAt_setPointer, hmerged.countAt, hcount]

theorem Located.copyNode {b : Nat} {tag' : Tag}
    (h : Located s lists i tid false pre a tag ((b, tag') :: post)) (hne : tag.tid ≠ tid) :
    ∃ s' pre', copyNode s (cellAfter (.head i) pre) a = .ok (s', cellAfter (.head i) pre', b) ∧
      Located s' lists i tid false pre' b tag' post := by
  obtain ⟨node, hnode, rfl, hpre, hpost, -⟩ := h.exists_node
  obtain ⟨-, hbefore, hafter, hdisjoint⟩ := h.disjoint
  obtain ⟨s', hok, hsound, hsegment, hcount⟩ := h.unshare hnode node.value
  have hnext : node.next = some b := by
    generalize node.next = q at hpost
    cases hpost with
    | cons _ _ => rfl
  have hnew {x : Nat × Tag} (hx : x ∈ pre ++ (a, node.value) :: (b, tag') :: post) :
      x.1 ≠ s.nodes.length := ne_of_lt (h.segment.mem_lt hx)
  have hb : b ≠ a := hafter (b, tag') mem_cons_self
  generalize hs' : s'.setPointer (some s.nodes.length) (cellAfter (.head i) pre) = s₁
    at hsound hsegment hcount
  -- other nodes keep their counts
  have hkeep {x : Nat × Tag} (hx : x ∈ pre ++ (a, node.value) :: (b, tag') :: post)
      (ha : x.1 ≠ a) (hb : x.1 ≠ b) : s₁.countAt x.1 = s.countAt x.1 := by
    have hx' := hcount x.1
    rw [hnext, unit_some, unit_some, unit_some, if_neg ha.symm, if_neg (hnew hx).symm,
      if_neg hb.symm] at hx'
    omega
  have hmem_pre {x : Nat × Tag} (hx : x ∈ pre) :
      x ∈ pre ++ (a, node.value) :: (b, tag') :: post := mem_append_left _ hx
  have hvals : (pre ++ (s.nodes.length, node.value) :: (b, tag') :: post).map Prod.snd =
      (pre ++ (a, node.value) :: (b, tag') :: post).map Prod.snd := by
    rw [map_append, map_append]
    rfl
  rw [hvals, h.sound.set_self h.segment h.index] at hsound
  refine ⟨s₁, pre ++ [(s.nodes.length, node.value)], ?_, ?_⟩
  · unfold PacketTagList.copyNode
    rw [read_ok hnode]
    rw [hnext] at hok
    dsimp only [bind, Except.bind]
    rw [cellAfter_concat, ← hs', hnext]
    dsimp only
    rw [hok]
    rfl
  · exact {
      sound := hsound
      index := h.index
      segment := by
        rw [append_assoc]
        exact hsegment
      single := by
        intro x hx
        cases mem_append.mp hx with
        | inl hmem =>
          have hb' := hdisjoint x hmem (b, tag') mem_cons_self
          rw [hkeep (hmem_pre hmem) (hbefore x hmem) hb']
          exact h.single x hmem
        | inr hmem =>
          rw [mem_singleton.mp hmem]
          refine ⟨hne, ?_⟩
          have hx' := hcount s.nodes.length
          rw [hnext, unit_some, unit_some, unit_some, if_neg (ne_of_lt (node?_lt hnode)),
            if_pos rfl, if_neg, countAt_length] at hx'
          · show s₁.countAt s.nodes.length ≤ 1
            omega
          · exact hnew (x := (b, tag')) (mem_append_right _ (mem_cons_of_mem _ mem_cons_self))
      self := by
        have hx' := hcount b
        have hlt := hnew (x := (b, tag')) (mem_append_right _ (mem_cons_of_mem _ mem_cons_self))
        rw [hnext, unit_some, unit_some, unit_some, if_neg hb.symm, if_neg hlt.symm, if_pos rfl]
          at hx'
        have hone : 1 ≤ s.countAt b := by
          rw [h.sound.countAt]
          refine refs_pos (c := .next a) ?_
          unfold pointer
          dsimp only
          rw [hnode]
          exact hnext
        show 1 < s₁.countAt b
        omega
      room := by
        intro x hx
        have hmem : x ∈ pre ++ (a, node.value) :: (b, tag') :: post :=
          mem_append_right _ (mem_cons_of_mem _ (mem_cons_of_mem _ hx))
        have hnodup := hsegment.nodup
        rw [map_append, map_cons, map_cons, nodup_append, nodup_cons, nodup_cons] at hnodup
        have hxb : x.1 ≠ b := by
          intro heq
          exact hnodup.2.1.2.1 (mem_map.mpr ⟨x, hx, heq⟩)
        rw [hkeep hmem (hafter x (mem_cons_of_mem _ hx)) hxb]
        exact h.room x (mem_cons_of_mem _ hx) }

theorem Located.not_le (h : Located s lists i tid false pre a tag post)
    (hnode : s.node? a = some node) : ¬node.count ≤ 1 := by
  have hlt : 1 < s.countAt a := h.self
  rw [countAt_of_node hnode] at hlt
  exact fun hle => absurd (le_def.mp hle) (Nat.not_le.mpr hlt)

theorem Located.copyUntil : ∀ (post : List (Nat × Tag)) (s : PacketTagLists)
    (pre : List (Nat × Tag)) (a : Nat) (tag : Tag) (n : Nat),
    Located s lists i tid false pre a tag post →
    (∃ x ∈ (a, tag) :: post, x.2.tid = tid) → post.length < n →
    ∃ s' pre' a' tag' post', copyUntil tid n s (cellAfter (.head i) pre) a =
        .ok (s', cellAfter (.head i) pre', a') ∧
      Located s' lists i tid false pre' a' tag' post' ∧ tag'.tid = tid := by
  intro post
  induction post with
  | nil =>
    intro s pre a tag n h hfound hn
    obtain ⟨x, hx, htid⟩ := hfound
    rw [mem_singleton.mp hx] at htid
    obtain ⟨node, hnode, rfl, -⟩ := h.exists_node
    cases n with
    | zero => exact absurd hn (Nat.not_lt_zero _)
    | succ n =>
      refine ⟨s, pre, a, node.value, [], ?_, h, htid⟩
      unfold PacketTagList.copyUntil
      rw [read_ok hnode]
      dsimp only [bind, Except.bind]
      rw [if_neg (h.not_le hnode), if_pos htid]
      rfl
  | cons y post ih =>
    intro s pre a tag n h hfound hn
    obtain ⟨node, hnode, rfl, -⟩ := h.exists_node
    cases n with
    | zero => exact absurd hn (Nat.not_lt_zero _)
    | succ n =>
      unfold PacketTagList.copyUntil
      rw [read_ok hnode]
      dsimp only [bind, Except.bind]
      rw [if_neg (h.not_le hnode)]
      cases Decidable.em (node.value.tid = tid) with
      | inl htid =>
        rw [if_pos htid]
        exact ⟨s, pre, a, node.value, y :: post, rfl, h, htid⟩
      | inr hne =>
        obtain ⟨b, tag'⟩ := y
        obtain ⟨s₁, pre₁, hcopy, hlocated⟩ := h.copyNode hne
        rw [if_neg hne, hcopy]
        refine ih s₁ pre₁ b tag' n hlocated ?_ (Nat.lt_of_succ_lt_succ hn)
        obtain ⟨x, hx, htid⟩ := hfound
        cases mem_cons.mp hx with
        | inl heq =>
          rw [heq] at htid
          exact absurd htid hne
        | inr hmem => exact ⟨x, hmem, htid⟩

/-! ## 4. Removing and replacing -/

section

variable (h : Located s lists i tid preMerge pre a tag post)
include h

theorem Located.values (hi : i < lists.length) :
    lists[i] = pre.map Prod.snd ++ tag :: post.map Prod.snd := by
  obtain ⟨nodes, hnodes, hvals⟩ := h.sound.exists_nodes hi
  rw [← hvals, ← h.segment.unique hnodes, map_append]
  rfl

theorem Located.bypass (hnode : s.node? a = some node) :
    Reads (s.setPointer node.next (cellAfter (.head i) pre))
        (lists.set i ((pre ++ post).map Prod.snd)) ∧
      Balanced (s.setPointer node.next (cellAfter (.head i) pre))
        (fun x => 0 + unit (some a) x - unit node.next x) ∧
      (s.setPointer node.next (cellAfter (.head i) pre)).node? a = some node ∧
      Segment (s.setPointer node.next (cellAfter (.head i) pre)) node.next post none := by
  obtain ⟨node', hnode', -, hpre, hpost, hpointer⟩ := h.exists_node
  rw [hnode] at hnode'
  cases hnode'
  obtain ⟨hnodup, hbefore, -, hdisjoint⟩ := h.disjoint
  obtain ⟨hreads, -⟩ := h.sound.reads.relink h.index hpre hnodup h.refs_single hpost hdisjoint
  refine ⟨hreads, h.sound.balanced.setPointer hpointer _, ?_, hpost.congr fun y hy => ?_⟩
  · rw [node?_setPointer (cellAfter_ne hbefore)]
    exact hnode
  · rcases cellAfter_cases (.head i) pre with ⟨-, heq⟩ | ⟨x, hx, heq⟩
    · rw [heq]
      rfl
    · rw [heq, link_setNext, if_neg (hdisjoint x hx y hy)]

theorem Located.removeWriter (tag' : Tag) :
    ∃ s', removeWriter s tag' preMerge a (cellAfter (.head i) pre) = .ok (s', tag) ∧
      Sound s' (lists.set i ((pre ++ post).map Prod.snd)) := by
  obtain ⟨node, hnode, rfl, -, hpost, hpointer⟩ := h.exists_node
  obtain ⟨hreads, hbalanced, hnode', hpost'⟩ := h.bypass hnode
  obtain ⟨-, -, hafter, -⟩ := h.disjoint
  generalize hs₁ : s.setPointer node.next (cellAfter (.head i) pre) = s₁
    at hreads hbalanced hnode' hpost'
  have hnext : unit node.next a = 0 := hpost.unit_eq_zero hafter
  have hpos : 0 < node.count.toNat := by
    have hrefs := refs_pos hpointer
    rw [← h.sound.countAt, countAt_of_node hnode] at hrefs
    exact hrefs
  have hself : (s₁.countAt a : Int) = s₁.refs a + (0 + unit (some a) a - unit node.next a) :=
    hbalanced a
  rw [countAt_of_node hnode', hnext, unit_some, if_pos rfl] at hself
  unfold PacketTagList.removeWriter
  rw [read_ok hnode]
  dsimp only [bind, Except.bind]
  rw [hs₁]
  cases preMerge with
  | true =>
    have hone : node.count.toNat = 1 := by
      have hle := h.self.2
      rw [countAt_of_node hnode] at hle
      exact le_antisymm hle hpos
    have hrefs : s₁.refs a = 0 := by omega
    refine ⟨s₁.setNode a none, rfl, (hbalanced.free hnode').congr fun x => ?_,
      hreads.free hnode' fun j nodes hnodes => hnodes.not_mem_of_refs rfl hrefs⟩
    rw [hone]
    push_cast
    ring
  | false =>
    have hpost₂ := hpost'.setCount hnode' (node.count - 1)
    have hroom : ∀ x ∈ post.head?, (s₁.setCount a (node.count - 1)).countAt x.1 + 1 < 2 ^ 32 := by
      intro x hx
      have hmem := mem_of_head? hx
      rw [countAt_setCount hnode', if_neg (hafter x hmem).symm, ← hs₁, countAt_setPointer]
      exact h.room x hmem
    obtain ⟨s₂, hok, hmerged⟩ := merge_ok hpost₂ hroom
    rw [if_neg Bool.false_ne_true, hok]
    refine ⟨s₂, rfl, (hmerged.balanced _ (hbalanced.dec hnode' hpos)).congr fun x => by ring, ?_⟩
    exact (hreads.setCount hnode' _).congr hmerged.heads fun _ _ _ x _ => hmerged.link x.1

theorem Located.replaceWriter {tag' : Tag} (htid : tag'.tid = tag.tid)
    (hsize : tag'.data.length = tag.data.length) :
    ∃ s', replaceWriter s tag' preMerge a (cellAfter (.head i) pre) = .ok (s', tag') ∧
      Sound s' (lists.set i ((pre ++ (a, tag') :: post).map Prod.snd)) := by
  obtain ⟨node, hnode, rfl, -⟩ := h.exists_node
  unfold PacketTagList.replaceWriter
  rw [read_ok hnode]
  dsimp only [bind, Except.bind]
  cases preMerge with
  | true =>
    have hover : node.value.over tag' = .ok tag' := by
      unfold Tag.over
      rw [dif_pos (le_of_eq hsize)]
      obtain ⟨tid', data', small'⟩ := tag'
      dsimp only at htid hsize ⊢
      congr 1
      rw [Tag.mk.injEq]
      refine ⟨htid.symm, ?_⟩
      rw [hsize, drop_length, append_nil]
    have hrefs : s.refs a ≤ 1 := h.sound.countAt a ▸ h.self.2
    rw [if_pos rfl, hover]
    refine ⟨s.setNode a (some { node with value := tag' }), rfl, ?_,
      h.sound.reads.setValue h.index h.segment hnode h.refs_single hrefs tag'⟩
    intro x
    have hcount := countAt_setNode (node?_lt hnode) (some { node with value := tag' }) x
    have hrefs := refs_setNode hnode (some { node with value := tag' }) x
    have hsame := h.sound.balanced x
    rw [Option.map_some, Option.getD_some, countAt_of_node hnode] at hcount
    rw [Option.bind_some] at hrefs
    rw [hcount, hrefs, hsame]
    ring
  | false =>
    obtain ⟨s', hok, hsound, -⟩ := h.unshare hnode tag'
    rw [if_neg Bool.false_ne_true, hok]
    refine ⟨_, rfl, ?_⟩
    have hvals : (pre ++ (a, tag') :: post).map Prod.snd =
        (pre ++ (s.nodes.length, tag') :: post).map Prod.snd := by
      rw [map_append, map_append]
      rfl
    rw [hvals]
    exact hsound

end

theorem Roomy.countAt (h : Sound s lists) (hroom : Roomy s) (hnodes : Segment s p nodes none) :
    ∀ x ∈ nodes, s.countAt x.1 + 1 < 2 ^ 32 := fun x hx =>
  h.countAt x.1 ▸ hroom x.1 (hnodes.mem_lt hx)

theorem rounds_lt (hnodes : Segment s p nodes none) : nodes.length < rounds s :=
  Nat.lt_succ_of_le hnodes.length_le

/-- The type is not on the list, or the writer is called with its node. -/
theorem Sound.cowTraverse (h : Sound s lists) (hi : i < lists.length) (hroom : Roomy s) (tid : Nat) :
    ((lists[i].find? fun tag => tag.tid = tid) = none ∧ ∀ tag writer, tag.tid = tid →
      cowTraverse s i tag writer = .ok (s, tag, false)) ∨
    ∃ s' preMerge pre a value post, Located s' lists i tid preMerge pre a value post ∧
      value.tid = tid ∧ ∀ tag writer, tag.tid = tid → cowTraverse s i tag writer =
        (writer s' tag preMerge a (cellAfter (.head i) pre)).map fun result =>
          (result.1, result.2, true) := by
  obtain ⟨nodes, hnodes, hvals⟩ := h.exists_nodes hi
  obtain ⟨pre, post, found, rfl, hsearch, hpre, hpost⟩ :=
    search_ok tid hnodes (rounds_lt hnodes) (.head i)
  have hpre_none : (pre.map Prod.snd).find? (fun tag => tag.tid = tid) = none := by
    refine find?_eq_none.mpr fun tag htag heq => ?_
    obtain ⟨x, hx, rfl⟩ := mem_map.mp htag
    exact (hpre x hx).1 (of_decide_eq_true heq)
  cases post with
  | nil =>
    refine .inl ⟨?_, fun tag writer htid => ?_⟩
    · rw [← hvals, append_nil]
      exact hpre_none
    · unfold PacketTagList.cowTraverse
      rw [htid, hsearch]
      rfl
  | cons y post =>
    obtain ⟨a, value⟩ := y
    obtain ⟨q, hpre_nodes, hrest⟩ := hnodes.split
    have hroom_post : ∀ x ∈ post, s.countAt x.1 + 1 < 2 ^ 32 := fun x hx =>
      Roomy.countAt h hroom hnodes x (mem_append_right _ (mem_cons_of_mem _ hx))
    obtain ⟨hfound, hmerge⟩ := hpost (a, value) rfl
    cases found with
    | true =>
      refine .inr ⟨s, true, pre, a, value, post, ⟨h, hi, hnodes, hpre, hfound rfl, hroom_post⟩,
        (hfound rfl).1, fun tag writer htid => ?_⟩
      unfold PacketTagList.cowTraverse
      rw [htid, hsearch]
      dsimp only [bind, Except.bind, head?_cons, Option.map_some]
      rw [if_pos rfl]
      cases writer s tag true a (cellAfter (.head i) pre) with
      | error e => rfl
      | ok result => rfl
    | false =>
      have hlocated : Located s lists i tid false pre a value post :=
        ⟨h, hi, hnodes, hpre, hmerge rfl, hroom_post⟩
      have hlen : ((a, value) :: post).length < rounds s := by
        refine Nat.lt_of_le_of_lt ?_ (rounds_lt hnodes)
        rw [length_append]
        exact Nat.le_add_left _ _
      cases hrest with
      | cons hlink rest =>
        obtain ⟨it, hfind, hit⟩ := find_ok tid (Segment.cons hlink rest) hlen
        cases it with
        | none =>
          refine .inl ⟨?_, fun tag writer htid => ?_⟩
          · rw [← hvals, map_append, find?_append, hpre_none]
            exact hit.symm
          · unfold PacketTagList.cowTraverse
            rw [htid, hsearch]
            dsimp only [bind, Except.bind, head?_cons, Option.map_some]
            rw [if_neg Bool.false_ne_true, hfind]
            rfl
        | some it =>
          have hexists : ∃ x ∈ (a, value) :: post, x.2.tid = tid := by
            have hmem := mem_of_find?_eq_some hit.symm
            obtain ⟨x, hx, heq⟩ := mem_map.mp hmem
            have htid := find?_some hit.symm
            exact ⟨x, hx, heq ▸ of_decide_eq_true htid⟩
          obtain ⟨s', pre', a', value', post', hcopy, hlocated', htid'⟩ :=
            Located.copyUntil post s pre a value (rounds s) hlocated hexists
              (Nat.lt_of_succ_lt hlen)
          refine .inr ⟨s', false, pre', a', value', post', hlocated', htid',
            fun tag writer htid => ?_⟩
          unfold PacketTagList.cowTraverse
          rw [htid, hsearch]
          dsimp only [bind, Except.bind, head?_cons, Option.map_some]
          rw [if_neg Bool.false_ne_true, hfind]
          dsimp only [Option.isNone_some]
          rw [if_neg Bool.false_ne_true, hcopy]
          dsimp only
          cases writer s' tag false a' (cellAfter (.head i) pre') with
          | error e => rfl
          | ok result => rfl

theorem Sound.add (h : Sound s lists) (hi : i < lists.length) {tag : Tag}
    (hnone : (lists[i].find? fun old => old.tid = tag.tid) = none) :
    ∃ s', add s i tag = .ok s' ∧ Sound s' (lists.set i (tag :: lists[i])) := by
  obtain ⟨nodes, hnodes, hvals⟩ := h.exists_nodes hi
  obtain ⟨it, hfind, hit⟩ := find_ok tag.tid hnodes (rounds_lt hnodes)
  rw [hvals, hnone] at hit
  have hnew : Segment (s.alloc ⟨next s i, 1, tag⟩) (some s.nodes.length)
      ((s.nodes.length, tag) :: nodes) none := by
    refine .cons ?_ (hnodes.alloc _)
    rw [link_alloc, if_pos rfl]
  obtain ⟨hreads, -⟩ := (h.reads.alloc ⟨next s i, 1, tag⟩).relink hi
    (.nil ((s.alloc ⟨next s i, 1, tag⟩).pointer (.head i))) .nil (forall_mem_nil _) hnew
    (forall_mem_nil _)
  refine ⟨(s.alloc ⟨next s i, 1, tag⟩).setPointer (some s.nodes.length) (.head i), ?_, ?_, ?_⟩
  · unfold PacketTagList.add
    rw [hfind]
    dsimp only [bind, Except.bind]
    rw [show it.isSome = false by rw [← Option.isSome_map (f := Node.value), hit]; rfl]
    rfl
  · exact ((h.balanced.alloc (p := next s i) tag).setHead (h.head hi) _).congr fun x => by ring
  · rw [← hvals]
    exact hreads

/-! ## 5. Removing all -/

theorem node?_free (s : PacketTagLists) (prev : Option Nat) (x : Nat) :
    (free s prev).node? x = if prev = some x then none else s.node? x := by
  cases prev with
  | none => rfl
  | some b =>
    unfold free node? setNode
    dsimp only
    rw [getElem?_set]
    split
    · next heq =>
      rw [if_pos (congrArg some heq)]
      split
      · rfl
      · rfl
    · next hne => rw [if_neg fun heq => hne (Option.some.inj heq)]

theorem free_setCount {prev : Option Nat} (hprev : prev ≠ some a) (count : BitVec 32) :
    free (s.setCount a count) prev = (free s prev).setCount a count := by
  cases prev with
  | none => rfl
  | some b =>
    have hne : a ≠ b := fun heq => hprev (congrArg some heq.symm)
    have hnode := node?_free s (some b) a
    rw [if_neg hprev] at hnode
    unfold Store.setCount
    rw [hnode]
    unfold free setNode
    dsimp only
    rw [set_comm _ _ hne]

/-- Without the node before and without the pointer of the list, the count of the current node is
one more than the number of pointers to it. -/
theorem removeFrom_ok : ∀ (nodes : List (Nat × Tag)) (s : PacketTagLists) (prev cur : Option Nat)
    (n : Nat), Balanced ((free s prev).setHead i none) (unit cur) →
    Reads ((free s prev).setHead i none) lists →
    Segment ((free s prev).setHead i none) cur nodes none → nodes.length < n →
    ∃ s', removeFrom n s prev cur = .ok s' ∧ Sound (s'.setHead i none) lists ∧
      s'.heads = s.heads ∧ ∀ x, s'.countAt x ≤ s.countAt x := by
  have hfree (s : PacketTagLists) (prev : Option Nat) (x : Nat) :
      (free s prev).countAt x ≤ s.countAt x := by
    unfold Store.countAt
    rw [node?_free]
    split
    · exact Nat.zero_le _
    · exact Nat.le_refl _
  have hheads (s : PacketTagLists) (prev : Option Nat) : (free s prev).heads = s.heads := by
    cases prev with
    | none => rfl
    | some b => rfl
  intro nodes
  induction nodes with
  | nil =>
    intro s prev cur n hbalanced hreads hnodes hn
    cases n with
    | zero => exact absurd hn (Nat.not_lt_zero _)
    | succ n =>
      cases hnodes with
      | nil => exact ⟨free s prev, rfl, ⟨hbalanced, hreads⟩, hheads s prev, hfree s prev⟩
  | cons y nodes ih =>
    intro s prev cur n hbalanced hreads hnodes hn
    have hnodup := hnodes.nodup
    cases n with
    | zero => exact absurd hn (Nat.not_lt_zero _)
    | succ n =>
      cases hnodes with
      | @cons a q _ value _ hlink rest =>
        obtain ⟨node, hnode, hnext, -⟩ := node?_of_link hlink
        have hfreed : (free s prev).node? a = some node := hnode
        have hprev : prev ≠ some a := by
          intro heq
          rw [node?_free, if_pos heq] at hfreed
          cases hfreed
        have hread : s.node? a = some node := by
          rw [node?_free, if_neg hprev] at hfreed
          exact hfreed
        have hcount : (node.count.toNat : Int) =
            ((free s prev).setHead i none).refs a + unit (some a) a := by
          rw [← countAt_of_node hnode]
          exact hbalanced a
        have hpos : 0 < node.count.toNat := by
          rw [unit_some, if_pos rfl] at hcount
          omega
        let s₁ := s.setCount a (node.count - 1)
        have hsame : (free s₁ prev).setHead i none =
            ((free s prev).setHead i none).setCount a (node.count - 1) := by
          rw [free_setCount hprev]
          rfl
        have hbalanced₁ : Balanced ((free s₁ prev).setHead i none) fun _ => 0 := by
          rw [hsame]
          exact (hbalanced.dec hnode hpos).congr fun x => Int.sub_self _
        have hreads₁ : Reads ((free s₁ prev).setHead i none) lists := by
          rw [hsame]
          exact hreads.setCount hnode _
        have hdown (x : Nat) : s₁.countAt x ≤ s.countAt x := by
          rw [countAt_setCount hread]
          split
          · next heq =>
            have hone : (1 : BitVec 32).toNat = 1 := rfl
            have hbound := node.count.isLt
            rw [← heq, countAt_of_node hread, toNat_sub, hone]
            omega
          · exact Nat.le_refl _
        unfold removeFrom
        rw [read_ok hread]
        dsimp only [bind, Except.bind]
        split
        · exact ⟨free s₁ prev, rfl, ⟨hbalanced₁, hreads₁⟩, hheads s₁ prev,
            fun x => (hfree s₁ prev x).trans (hdown x)⟩
        · next hzero =>
          have hnode₁ : ((free s₁ prev).setHead i none).node? a =
              some { node with count := node.count - 1 } := by
            rw [hsame, node?_setCount hnode, if_pos rfl]
          have hnone : (node.count - 1).toNat = 0 :=
            Nat.eq_zero_of_not_pos fun hlt => hzero (lt_def.mpr hlt)
          have hrefs : ((free s₁ prev).setHead i none).refs a = 0 := by
            have hself : (((free s₁ prev).setHead i none).countAt a : Int) =
              ((free s₁ prev).setHead i none).refs a + 0 := hbalanced₁ a
            rw [countAt_of_node hnode₁, hnone] at hself
            omega
          have hbalanced₂ : Balanced ((free (free s₁ prev) (some a)).setHead i none) (unit q) := by
            refine (hbalanced₁.free hnode₁).congr fun x => ?_
            rw [hnone, hnext]
            push_cast
            ring
          have hreads₂ : Reads ((free (free s₁ prev) (some a)).setHead i none) lists :=
            hreads₁.free hnode₁ fun j nodes' hnodes' => hnodes'.not_mem_of_refs rfl hrefs
          have hrest : Segment ((free (free s₁ prev) (some a)).setHead i none) q nodes none := by
            refine rest.congr fun x hx => ?_
            have hxa : a ≠ x.1 := fun heq =>
              (nodup_cons.mp hnodup).1 (mem_map.mpr ⟨x, hx, heq.symm⟩)
            show (((free s₁ prev).setHead i none).setNode a none).link x.1 = _
            rw [link_setNode (node?_lt hnode₁), if_neg hxa, hsame, link_setCount hnode]
          obtain ⟨s', hok, hsound, hsame', hle⟩ := ih (free s₁ prev) (some a) q n hbalanced₂
            hreads₂ hrest (Nat.lt_of_succ_lt_succ hn)
          rw [hnext]
          exact ⟨s', hok, hsound, hsame'.trans (hheads s₁ prev),
            fun x => (hle x).trans ((hfree s₁ prev x).trans (hdown x))⟩

section

variable (h : Sound s lists)
include h

/-- The pointer of a list is changed, and its nodes are left to others. -/
theorem Sound.setHead (hi : i < lists.length) {q : Option Nat} (hnodes : Segment s q nodes none) :
    Reads (s.setHead i q) (lists.set i (nodes.map Prod.snd)) :=
  (h.reads.relink hi (.nil (s.pointer (.head i))) .nil (forall_mem_nil _) hnodes
    (forall_mem_nil _)).1

theorem Sound.removeAll (hi : i < lists.length) :
    ∃ s', removeAll s i = .ok s' ∧ Sound s' (lists.set i []) ∧ s'.heads = s.heads.set i none ∧
      ∀ x, s'.countAt x ≤ s.countAt x := by
  obtain ⟨nodes, hnodes, -⟩ := h.exists_nodes hi
  have hbalanced : Balanced (s.setHead i none) (unit (next s i)) :=
    (h.balanced.setHead (h.head hi) none).congr fun x => by
      rw [unit_none]
      ring
  obtain ⟨s', hok, hsound, hheads, hle⟩ := removeFrom_ok nodes s none (next s i) (rounds s)
    hbalanced (h.setHead hi (.nil none)) (hnodes.congr fun _ _ => rfl) (rounds_lt hnodes)
  refine ⟨s'.setHead i none, ?_, hsound, congrArg (List.set · i none) hheads, hle⟩
  unfold PacketTagList.removeAll
  rw [hok]
  rfl

/-! ## 6. Copies -/

theorem Sound.copy {o : Nat} (ho : o < lists.length) (hroom : Roomy s) :
    ∃ s', copy s o = .ok s' ∧ Sound s' (lists ++ [lists[o]]) := by
  obtain ⟨nodes, hnodes, hvals⟩ := h.exists_nodes ho
  have hnodes' : Segment (s.addHead (next s o)) (next s o) nodes none := hnodes.congr fun _ _ => rfl
  obtain ⟨s', hok, hmerged⟩ := merge_ok hnodes' fun x hx =>
    Roomy.countAt h hroom hnodes x (mem_of_head? hx)
  refine ⟨s', hok, (hmerged.balanced _ (h.balanced.addHead _)).congr fun x => by ring, ?_⟩
  rw [← hvals]
  exact (h.reads.addHead hnodes).congr hmerged.heads fun _ _ _ x _ => hmerged.link x.1

theorem Sound.construct : Sound (construct s) (lists ++ [[]]) :=
  ⟨(h.balanced.addHead none).congr fun x => by rw [unit_none]; rfl, h.reads.addHead (.nil none)⟩

theorem Sound.assign {o : Nat} (hi : i < lists.length) (ho : o < lists.length) (hroom : Roomy s) :
    ∃ s', assign s i o = .ok s' ∧ Sound s' (lists.set i lists[o]) := by
  obtain ⟨nodes, hnodes, hvals⟩ := h.exists_nodes ho
  unfold PacketTagList.assign
  split
  · next heq =>
    refine ⟨s, rfl, ?_⟩
    rw [← hvals, h.set_self (heq ▸ hnodes) hi]
    exact h
  · next hne =>
    have hio : i ≠ o := fun heq => hne (congrArg (next s) heq)
    obtain ⟨s₁, hok, hsound, hheads, hle⟩ := h.removeAll hi
    have ho₁ : o < (lists.set i []).length := length_set.symm ▸ ho
    have hi₁ : i < (lists.set i []).length := length_set.symm ▸ hi
    have hnext : next s₁ o = next s o := by
      unfold next pointer
      dsimp only
      rw [hheads, getElem?_set_ne hio]
    obtain ⟨nodes₁, hnodes₁, hvals₁⟩ := hsound.exists_nodes ho₁
    rw [getElem_set_ne hio] at hvals₁
    rw [hnext] at hnodes₁
    have hroom₁ : ∀ x ∈ nodes₁.head?, (s₁.setHead i (next s o)).countAt x.1 + 1 < 2 ^ 32 := by
      intro x hx
      have hx' := hnodes₁.eq_head x hx
      refine lt_of_le_of_lt (Nat.succ_le_succ (hle x.1)) ?_
      cases nodes with
      | nil =>
        rw [hx'] at hnodes
        cases hnodes
      | cons y nodes =>
        have hy := hnodes.eq_head y rfl
        rw [hx'] at hy
        rw [Option.some.inj hy]
        exact Roomy.countAt h hroom hnodes y mem_cons_self
    have hnodes₂ : Segment (s₁.setHead i (next s o)) (next s o) nodes₁ none :=
      hnodes₁.congr fun _ _ => rfl
    obtain ⟨s₂, hmerge, hmerged⟩ := merge_ok hnodes₂ hroom₁
    have hempty : next s₁ i = none := by
      have hlt : i < s.heads.length := h.reads.length.symm ▸ hi
      unfold next pointer
      dsimp only
      rw [hheads, getElem?_set_self hlt]
      rfl
    have hbalanced := hsound.balanced.setHead (hsound.head hi₁) (next s o)
    refine ⟨s₂, ?_, (hmerged.balanced _ hbalanced).congr fun x => ?_, ?_⟩
    · rw [hok]
      show merge (s₁.setHead i (next s₁ o)) (next s₁ o) = _
      rw [hnext]
      exact hmerge
    · rw [hempty, unit_none]
      ring
    · have hreads := hsound.setHead hi₁ hnodes₁
      rw [set_set, hvals₁] at hreads
      exact hreads.congr hmerged.heads fun _ _ _ x _ => hmerged.link x.1

end

end Nodes

/-! ## 7. Maps -/

section Maps

variable {x x' : PacketTagLists × List TagMap} {lists : List (List Tag)} {before after : List Tag}
  {tag tag' : Tag} {i : Nat}

/-- The first tag of each type. -/
def toMap (list : List Tag) : TagMap := fun tid => list.find? fun tag => tag.tid = tid

/-- The tags of a list have different types. -/
def Distinct (list : List Tag) : Prop := (list.map Tag.tid).Nodup

theorem toMap_cons (tag : Tag) (list : List Tag) :
    toMap (tag :: list) = (toMap list).put tag.tid (some tag) := by
  funext tid
  unfold toMap TagMap.put
  rw [find?_cons, update_apply]
  split
  · next heq => rw [if_pos (of_decide_eq_true heq).symm]
  · next hne => rw [if_neg fun heq => (of_decide_eq_false hne) heq.symm]

theorem toMap_eq_none {list : List Tag} {tid : Nat} (h : ∀ old ∈ list, old.tid ≠ tid) :
    toMap list tid = none :=
  find?_eq_none.mpr fun old hold heq => h old hold (of_decide_eq_true heq)

theorem Distinct.split (h : Distinct (before ++ tag :: after)) :
    (∀ old ∈ before, old.tid ≠ tag.tid) ∧ ∀ old ∈ after, old.tid ≠ tag.tid := by
  unfold Distinct at h
  rw [map_append, map_cons, nodup_append, nodup_cons] at h
  obtain ⟨-, ⟨hafter, -⟩, hbefore⟩ := h
  refine ⟨fun old hold => ?_, fun old hold heq => ?_⟩
  · exact hbefore old.tid (mem_map_of_mem hold) tag.tid mem_cons_self
  · exact hafter (mem_map.mpr ⟨old, hold, heq⟩)

theorem toMap_append (before after : List Tag) (tid : Nat) :
    toMap (before ++ after) tid = (toMap before tid).or (toMap after tid) :=
  find?_append

section

variable (h : Distinct (before ++ tag :: after))
include h

theorem toMap_self : toMap (before ++ tag :: after) tag.tid = some tag := by
  rw [toMap_append, toMap_eq_none h.split.1, toMap_cons]
  exact update_self ..

theorem toMap_remove :
    toMap (before ++ after) = (toMap (before ++ tag :: after)).put tag.tid none := by
  funext tid
  unfold TagMap.put
  rw [update_apply, toMap_append, toMap_append, toMap_cons]
  unfold TagMap.put
  split
  · next heq => rw [heq, toMap_eq_none h.split.1, toMap_eq_none h.split.2]; rfl
  · next hne => rw [update_of_ne hne]

theorem toMap_replace (htid : tag'.tid = tag.tid) :
    toMap (before ++ tag' :: after) = (toMap (before ++ tag :: after)).put tag.tid (some tag') := by
  funext tid
  unfold TagMap.put
  rw [update_apply, toMap_append, toMap_append, toMap_cons, toMap_cons]
  unfold TagMap.put
  rw [htid]
  split
  · next heq =>
    rw [heq, toMap_eq_none h.split.1, update_self]
    rfl
  · next hne => rw [update_of_ne hne, update_of_ne hne]

end

/-- The lists are read as the maps. -/
structure Kept (x : PacketTagLists × List TagMap) (lists : List (List Tag)) : Prop where
  sound : Sound x.1 lists
  maps : x.2 = lists.map toMap
  distinct : ∀ list ∈ lists, Distinct list

theorem Kept.length (h : Kept x lists) : x.2.length = lists.length := by
  rw [h.maps, length_map]

theorem Kept.mapAt (h : Kept x lists) (hi : i < lists.length) : mapAt x.2 i = toMap lists[i] := by
  unfold PacketTagList.mapAt
  rw [h.maps, getD_eq_getElem?_getD, getElem?_map, getElem?_eq_getElem hi]
  rfl

theorem Kept.set (h : Kept x lists) {s : PacketTagLists} {list : List Tag} {map : TagMap}
    (hsound : Sound s (lists.set i list)) (hmap : map = toMap list) (hdistinct : Distinct list) :
    Kept (s, x.2.set i map) (lists.set i list) := by
  refine ⟨hsound, ?_, fun list' hlist' => ?_⟩
  · rw [map_set, ← h.maps, hmap]
  · cases mem_or_eq_of_mem_set hlist' with
    | inl hmem => exact h.distinct list' hmem
    | inr heq => exact heq ▸ hdistinct

theorem Kept.concat (h : Kept x lists) {s : PacketTagLists} {list : List Tag} {map : TagMap}
    (hsound : Sound s (lists ++ [list])) (hmap : map = toMap list) (hdistinct : Distinct list) :
    Kept (s, x.2 ++ [map]) (lists ++ [list]) := by
  refine ⟨hsound, ?_, fun list' hlist' => ?_⟩
  · rw [map_append, ← h.maps, hmap]
    rfl
  · cases mem_append.mp hlist' with
    | inl hmem => exact h.distinct list' hmem
    | inr heq => exact mem_singleton.mp heq ▸ hdistinct

theorem Kept.peek (h : Kept x lists) (hi : i < lists.length) (tag : Tag) : peek x.1 i tag =
    .ok ((PacketTagList.mapAt x.2 i tag.tid).getD tag,
      (PacketTagList.mapAt x.2 i tag.tid).isSome) := by
  obtain ⟨nodes, hnodes, hvals⟩ := h.sound.exists_nodes hi
  obtain ⟨it, hfind, hit⟩ := find_ok tag.tid hnodes (rounds_lt hnodes)
  have hmap : PacketTagList.mapAt x.2 i tag.tid = it.map Node.value := by
    rw [h.mapAt hi, hit, hvals]
    rfl
  unfold PacketTagList.peek
  rw [hfind, hmap, Option.isSome_map]
  rfl

section

variable (h : Kept x lists) (hi : i < lists.length)
include h hi

/-- The type is found, and what `Remove` and `Replace` make of the list. -/
theorem Kept.remove (hroom : Roomy x.1) (tag : Tag) :
    ∃ s lists', remove x.1 i tag = .ok (s, (PacketTagList.mapAt x.2 i tag.tid).getD tag,
        (PacketTagList.mapAt x.2 i tag.tid).isSome) ∧
      Kept (s, x.2.set i ((PacketTagList.mapAt x.2 i).put tag.tid none)) lists' := by
  have hmap := h.mapAt hi
  unfold PacketTagList.remove
  rcases h.sound.cowTraverse hi hroom tag.tid with
    ⟨hnone, hok⟩ | ⟨s₁, preMerge, pre, a, value, post, hlocated, htid, hok⟩
  · have hnone' : PacketTagList.mapAt x.2 i tag.tid = none := by
      rw [hmap]
      exact hnone
    refine ⟨x.1, lists, ?_, h.sound, ?_, h.distinct⟩
    · rw [hok tag _ rfl, hnone']
      rfl
    · have hput : (PacketTagList.mapAt x.2 i).put tag.tid none = PacketTagList.mapAt x.2 i := by
        unfold TagMap.put
        rw [← hnone', update_eq_self]
      rw [hput, hmap, h.maps, ← map_set, set_getElem_self]
  · obtain ⟨s', hwriter, hsound⟩ := hlocated.removeWriter tag
    have hvals := hlocated.values hi
    have hdistinct := h.distinct _ (getElem_mem hi)
    rw [hvals] at hmap hdistinct
    have hself : PacketTagList.mapAt x.2 i tag.tid = some value := by
      rw [hmap, ← htid]
      exact toMap_self hdistinct
    refine ⟨s', _, ?_, h.set hsound ?_ ?_⟩
    · rw [hok tag _ rfl, hwriter, hself]
      rfl
    · rw [hmap, ← htid, map_append]
      exact (toMap_remove hdistinct).symm
    · rw [map_append]
      exact hdistinct.sublist (((sublist_cons_self _ _).append_left _).map _)

theorem Kept.add (hnone : PacketTagList.mapAt x.2 i tag.tid = none) :
    ∃ s lists', add x.1 i tag = .ok s ∧
      Kept (s, x.2.set i ((PacketTagList.mapAt x.2 i).put tag.tid (some tag))) lists' := by
  have hmap := h.mapAt hi
  rw [hmap] at hnone
  obtain ⟨s', hok, hsound⟩ := h.sound.add hi hnone
  refine ⟨s', _, hok, h.set hsound ?_ ?_⟩
  · rw [hmap, toMap_cons]
  · refine nodup_cons.mpr ⟨fun hmem => ?_, h.distinct _ (getElem_mem hi)⟩
    obtain ⟨old, hold, heq⟩ := mem_map.mp hmem
    exact absurd (decide_eq_true heq) (find?_eq_none.mp hnone old hold)

theorem Kept.replace (hroom : Roomy x.1)
    (hsize : ∀ old ∈ PacketTagList.mapAt x.2 i tag.tid, tag.data.length = old.data.length) :
    ∃ s lists', replace x.1 i tag = .ok (s, tag, (PacketTagList.mapAt x.2 i tag.tid).isSome) ∧
      Kept (s, x.2.set i ((PacketTagList.mapAt x.2 i).put tag.tid (some tag))) lists' := by
  have hmap := h.mapAt hi
  unfold PacketTagList.replace
  rcases h.sound.cowTraverse hi hroom tag.tid with
    ⟨hnone, hok⟩ | ⟨s₁, preMerge, pre, a, value, post, hlocated, htid, hok⟩
  · have hnone' : PacketTagList.mapAt x.2 i tag.tid = none := by
      rw [hmap]
      exact hnone
    obtain ⟨s', lists', hadd, hkept⟩ := h.add hi hnone'
    refine ⟨s', lists', ?_, hkept⟩
    rw [hok tag _ rfl, hnone']
    dsimp only [bind, Except.bind]
    rw [if_neg Bool.false_ne_true, hadd]
    rfl
  · have hvals := hlocated.values hi
    have hdistinct := h.distinct _ (getElem_mem hi)
    rw [hvals] at hmap hdistinct
    have hself : PacketTagList.mapAt x.2 i tag.tid = some value := by
      rw [hmap, ← htid]
      exact toMap_self hdistinct
    obtain ⟨s', hwriter, hsound⟩ :=
      hlocated.replaceWriter htid.symm (hsize value (Option.mem_def.mpr hself))
    refine ⟨s', _, ?_, h.set hsound ?_ ?_⟩
    · rw [hok tag _ rfl, hwriter, hself]
      rfl
    · rw [hmap, ← htid, map_append]
      exact (toMap_replace hdistinct htid.symm).symm
    · unfold Distinct at hdistinct ⊢
      rw [map_append, map_cons] at hdistinct ⊢
      rw [map_append, map_cons, ← htid]
      exact hdistinct

end

/-- A call that is proper goes through, and the lists stay the maps. -/
theorem Kept.perform (h : Kept x lists) {action : Action} (hproper : Proper x.2 action)
    (hroom : Roomy x.1) : ∃ s lists', perform x.1 action = .ok (s, (onMaps x.2 action).2) ∧
      Kept (s, (onMaps x.2 action).1) lists' := by
  have hlen := h.length
  have hmap {β γ : Type} {result : Except Failure β} {y : β} (f : β → γ) (hok : result = .ok y) :
      result.map f = .ok (f y) := hok ▸ rfl
  cases action with
  | construct =>
    exact ⟨_, _, rfl, h.concat h.sound.construct rfl .nil⟩
  | copy o =>
    have ho : o < lists.length := hlen ▸ hproper
    obtain ⟨s', hok, hsound⟩ := h.sound.copy ho hroom
    exact ⟨s', _, hmap _ hok, h.concat hsound (h.mapAt ho) (h.distinct _ (getElem_mem ho))⟩
  | assign j o =>
    have hj : j < lists.length := hlen ▸ hproper.1
    have ho : o < lists.length := hlen ▸ hproper.2
    obtain ⟨s', hok, hsound⟩ := h.sound.assign hj ho hroom
    exact ⟨s', _, hmap _ hok, h.set hsound (h.mapAt ho) (h.distinct _ (getElem_mem ho))⟩
  | add j tag =>
    obtain ⟨s', lists', hok, hkept⟩ := h.add (hlen ▸ hproper.1) hproper.2
    exact ⟨s', lists', hmap _ hok, hkept⟩
  | remove j tag =>
    have hj : j < lists.length := hlen ▸ hproper
    obtain ⟨s', lists', hok, hkept⟩ := h.remove hj hroom tag
    exact ⟨s', lists', hmap _ hok, hkept⟩
  | replace j tag =>
    obtain ⟨s', lists', hok, hkept⟩ := h.replace (hlen ▸ hproper.1) hroom hproper.2
    exact ⟨s', lists', hmap _ hok, hkept⟩
  | peek j tag =>
    have hj : j < lists.length := hlen ▸ hproper
    exact ⟨x.1, lists, hmap _ (h.peek hj tag), h⟩
  | removeAll j =>
    have hj : j < lists.length := hlen ▸ hproper
    obtain ⟨s', hok, hsound, -⟩ := h.sound.removeAll hj
    exact ⟨s', _, hmap _ hok, h.set hsound rfl .nil⟩

theorem Kept.persistent (h : Kept x lists) : Persistent x where
  length := h.sound.reads.length.trans h.length.symm
  maps := fun _ hi tag => h.peek (h.length ▸ hi) tag
  result := by
    intro action hproper hroom
    obtain ⟨s', -, hok, -⟩ := h.perform hproper hroom
    exact ⟨s', hok⟩
  counts := by
    intro a node hnode
    rw [← h.sound.countAt, countAt_of_node hnode]

theorem kept_initial : Kept (⟨[], []⟩, []) [] :=
  ⟨⟨fun _ => rfl, rfl, fun _ _ hi => by cases hi⟩, rfl, forall_mem_nil _⟩

/-- In every run of proper calls, as long as the counts have room. -/
theorem persistent_of_run {actions : List Action}
    (hrun : FallibleRun step (fun x action => Proper x.2 action ∧ Roomy x.1) (⟨[], []⟩, []) actions
      x) : Persistent x := by
  have hkept : ∃ lists, Kept x lists := by
    refine hrun.invariant (fun x => ∃ lists, Kept x lists) ?_ ⟨[], kept_initial⟩
    rintro x action x' ⟨lists, h⟩ ⟨hproper, hroom⟩ hstep
    obtain ⟨s', lists', hok, hkept⟩ := h.perform hproper hroom
    unfold step at hstep
    rw [hok] at hstep
    cases hstep
    exact ⟨lists', hkept⟩
  obtain ⟨lists, h⟩ := hkept
  exact h.persistent

end Maps

/-- A tag of one byte. -/
def byteTag (tid : Nat) (byte : BitVec 8) : Tag :=
  ⟨tid, [byte], show 1 < 0xffffffff by decide⟩

/-- The copy replaces the tag that is shared, and the first list removes its own. -/
def shareAndReplace : List Action :=
  [.construct, .add 0 (byteTag 1 10), .copy 0, .add 1 (byteTag 2 20), .replace 1 (byteTag 1 11),
    .remove 0 (byteTag 1 0)]

theorem persistent_of_run_shared :
    Persistent (⟨[none, some ⟨some 2, 1, byteTag 2 20⟩, some ⟨none, 1, byteTag 1 11⟩],
        [none, some 1]⟩,
      [(emptyMap.put 1 (some (byteTag 1 10))).put 1 none,
        ((emptyMap.put 1 (some (byteTag 1 10))).put 2 (some (byteTag 2 20))).put 1
          (some (byteTag 1 11))]) :=
  @persistent_of_run _ shareAndReplace <|
    .cons (by decide) rfl <| .cons (by decide) rfl <| .cons (by decide) rfl <|
    .cons (by decide) rfl <| .cons (by decide) rfl <| .cons (by decide) rfl (.nil _)

/-! ## 8. The counts overflow -/

/-- `n + 1` lists that share one tag. -/
def shared (n : Nat) : PacketTagLists :=
  ⟨[some ⟨none, BitVec.ofNat 32 (n + 1), byteTag 1 10⟩], List.replicate (n + 1) (some 0)⟩

def sharedMaps (n : Nat) : List TagMap :=
  List.replicate (n + 1) (emptyMap.put 1 (some (byteTag 1 10)))

theorem shared_run (n : Nat) : ∃ actions, FallibleRun step (fun x action => Proper x.2 action)
    (⟨[], []⟩, []) actions (shared n, sharedMaps n) := by
  induction n with
  | zero =>
    exact ⟨[.construct, .add 0 (byteTag 1 10)], .cons trivial rfl (.cons (by decide) rfl (.nil _))⟩
  | succ n ih =>
    obtain ⟨actions, hrun⟩ := ih
    have hcount : ofNat 32 (n + 1) + 1 = ofNat 32 (n + 1 + 1) := (BitVec.ofNat_add ..).symm
    have hheads : List.replicate (n + 1) (some 0) ++ [some 0] =
        List.replicate (n + 1 + 1) (some 0) := replicate_succ'.symm
    have hmaps : sharedMaps n ++ [emptyMap.put 1 (some (byteTag 1 10))] = sharedMaps (n + 1) :=
      replicate_succ'.symm
    have hstep : step (shared n, sharedMaps n) (.copy 0) = .ok (shared (n + 1), sharedMaps (n + 1)) := by
      have hcopy : step (shared n, sharedMaps n) (.copy 0) =
          .ok (⟨[some ⟨none, ofNat 32 (n + 1) + 1, byteTag 1 10⟩],
              List.replicate (n + 1) (some 0) ++ [some 0]⟩,
            sharedMaps n ++ [emptyMap.put 1 (some (byteTag 1 10))]) := rfl
      rw [hcopy, hcount, hheads, hmaps]
      rfl
    have hproper : Proper (sharedMaps n) (.copy 0) := Nat.lt_of_lt_of_eq (Nat.succ_pos n)
      length_replicate.symm
    exact ⟨actions ++ [.copy 0], hrun.append (.cons hproper hstep (.nil _))⟩

/-- With `2 ^ 32 + 1` lists the count is 1, and the first list frees the node of the others. -/
theorem count_begins_again : ∃ actions s maps,
    FallibleRun step (fun x action => Proper x.2 action) (⟨[], []⟩, []) actions (s, maps) ∧
    mapAt maps 1 1 = some (byteTag 1 10) ∧ peek s 1 (byteTag 1 0) = .error .invalid := by
  obtain ⟨n, hn⟩ : ∃ n, n + 1 + 1 = 2 ^ 32 + 1 := ⟨2 ^ 32 - 1, rfl⟩
  obtain ⟨actions, hrun⟩ := shared_run (n + 1)
  have hcount : BitVec.ofNat 32 (n + 1 + 1) = 1 := by
    rw [hn]
    rfl
  have hshared : shared (n + 1) =
      ⟨[some ⟨none, 1, byteTag 1 10⟩], some 0 :: some 0 :: List.replicate n (some 0)⟩ := by
    unfold shared
    rw [hcount]
    rfl
  have hproper : Proper (sharedMaps (n + 1)) (.remove 0 (byteTag 1 0)) :=
    Nat.lt_of_lt_of_eq (Nat.succ_pos (n + 1)) List.length_replicate.symm
  rw [hshared] at hrun
  exact ⟨actions ++ [.remove 0 (byteTag 1 0)],
    ⟨[none], none :: some 0 :: List.replicate n (some 0)⟩, _,
    hrun.append (.cons hproper rfl (.nil _)), rfl, rfl⟩

end MoeJit.PacketTagList
