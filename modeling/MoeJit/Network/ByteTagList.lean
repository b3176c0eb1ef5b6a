import MoeJit.Lib.FallibleRun
import MoeJit.Lib.RefCount
import Mathlib.Algebra.Order.Ring.Int

/-!
# Byte tag lists

The byte tags of a packet are the ranges of bytes that they tag, relative to an origin that is moved
when bytes are added or removed at the start. Ranges that are outside of the packet are cut when
they are read, or when the packet grows again. Copies of a packet share the ranges, and the packet
that was the last to add one adds the next one in place.

Whatever is done with the packets, the tags of each are those of its bytes, as long as the offsets
do not overflow and fewer than `2 ^ 32` lists share their ranges (`tags_of_run`). With more lists
the count begins again, and a packet changes the tags of another one (`tag_overwritten_by_copy`).
-/

namespace MoeJit.ByteTags

open RefCount List

/-! ## 1. Model -/

/-- A tag as it is serialized. -/
structure Tag where
  tid : BitVec 32
  data : List (BitVec 8)
  deriving DecidableEq

/-- A tag with its range, as it is stored and as the iterator returns it. -/
structure Item where
  tag : Tag
  start : Int
  stop : Int
  deriving DecidableEq

/-- Four words and the data of the tag. -/
def Item.size (it : Item) : Nat := it.tag.data.length + 4 + 4 + 4 + 4

/-- A pointer that cannot be read or an assertion that fails, and an offset that is not an `int32_t`
or a size that is not a `uint32_t`. -/
inductive Failure
  | invalid
  | overflow
  deriving DecidableEq

def offset (x : Int) : Except Failure Int :=
  if -2 ^ 31 ≤ x ∧ x < 2 ^ 31 then .ok x else .error .overflow

/-- `OFFSET_MAX`. -/
def offsetMax : Int := 2 ^ 31 - 1

/-- The items that are written one after the other in the buffer. -/
structure ByteTagListData where
  size : Nat
  dirty : Nat
  data : List Item
  deriving DecidableEq

/-- The items in the first bytes of a buffer. -/
def upTo : Nat → List Item → List Item
  | _, [] => []
  | used, it :: data => if used < it.size then [] else it :: upTo (used - it.size) data

/-- The buffers, the sizes of those in the free list from the back on, and `g_maxSize`. -/
structure Memory where
  heap : Heap ByteTagListData
  freeList : List Nat
  maxSize : Nat
  deriving DecidableEq

structure ByteTagList where
  minStart : Int
  maxEnd : Int
  adjustment : Int
  used : Nat
  data : Option Nat
  deriving DecidableEq

/-- The constructor. -/
def initial : ByteTagList := ⟨2 ^ 31 - 1, -2 ^ 31, 0, 0, none⟩

/-- The buffers that are too small are deleted. -/
def takeFree (size : Nat) : List Nat → Option Nat × List Nat
  | [] => (none, [])
  | free :: freeList => if size ≤ free then (some free, freeList) else takeFree size freeList

namespace Memory

variable (m : Memory)

def get (a : Nat) : Except Failure (Cell ByteTagListData) :=
  match m.heap.cell? a with
  | none => .error .invalid
  | some cell => .ok cell

def setValue (a : Nat) (value : ByteTagListData) : Memory :=
  { m with heap := m.heap.setValue a value }

/-- A buffer of the free list gets a new address. -/
def allocate (size : Nat) : Memory × Nat :=
  let found := takeFree size m.freeList
  ({ m with heap := m.heap.alloc ⟨found.1.getD size, 0, []⟩, freeList := found.2 }, m.heap.length)

def deallocate : Option Nat → Except Failure Memory
  | none => .ok m
  | some a => do
    let cell ← m.get a
    let maxSize := max m.maxSize cell.value.size
    let keep := cell.count - 1 = 0 ∧ ¬(1000 < m.freeList.length ∨ cell.value.size < maxSize)
    return ⟨m.heap.release a, if keep then cell.value.size :: m.freeList else m.freeList, maxSize⟩

/-- A copy of the pointer is counted. -/
def share : Option Nat → Except Failure Memory
  | none => .ok m
  | some a => do
    let _ ← m.get a
    return { m with heap := m.heap.retain a }

/-- The buffer that a list can add its next item to. -/
def room (l : ByteTagList) (spaceNeeded : Nat) : Except Failure (Memory × Nat) :=
  match l.data with
  | none => .ok (m.allocate spaceNeeded)
  | some a => do
    let cell ← m.get a
    if cell.value.size < spaceNeeded ∨ cell.count ≠ 1 ∧ cell.value.dirty ≠ l.used then
      let (m, newData) := m.allocate spaceNeeded
      let new ← m.get newData
      let m := m.setValue newData { new.value with data := upTo l.used cell.value.data }
      let m ← m.deallocate (some a)
      return (m, newData)
    else return (m, a)

def add (l : ByteTagList) (tag : Tag) (start stop : Int) :
    Except Failure (Memory × ByteTagList) := do
  let spaceNeeded := l.used + tag.data.length + 4 + 4 + 4 + 4
  if 2 ^ 32 ≤ spaceNeeded then throw .overflow
  let (m, a) ← m.room l spaceNeeded
  let used := if l.data.isNone then 0 else l.used
  let start ← offset (start - l.adjustment)
  let stop ← offset (stop - l.adjustment)
  let cell ← m.get a
  let value := { cell.value with
    data := upTo used cell.value.data ++ [⟨tag, start, stop⟩]
    dirty := spaceNeeded }
  return (m.setValue a value,
    { l with
      minStart := min start l.minStart
      maxEnd := max stop l.maxEnd
      used := spaceNeeded
      data := some a })

def addItems : Memory → ByteTagList → List Item → Except Failure (Memory × ByteTagList)
  | m, l, [] => .ok (m, l)
  | m, l, it :: items => do
    let (m, l) ← m.add l it.tag it.start it.stop
    addItems m l items

end Memory

/-- What the iterator returns. -/
def visible (offsetStart offsetEnd adjustment : Int) : List Item → Except Failure (List Item)
  | [] => .ok []
  | it :: data => do
    let nextStart ← offset (it.start + adjustment)
    let nextEnd ← offset (it.stop + adjustment)
    let items ← visible offsetStart offsetEnd adjustment data
    if nextStart ≥ offsetEnd ∨ nextEnd ≤ offsetStart then return items
    else return ⟨it.tag, max nextStart offsetStart, min nextEnd offsetEnd⟩ :: items

section Lists

variable (m : Memory) (l : ByteTagList)

/-- `Begin`. -/
def beginIn (offsetStart offsetEnd : Int) : Except Failure (List Item) :=
  match l.data with
  | none => .ok []
  | some a => do
    let cell ← m.get a
    visible offsetStart offsetEnd l.adjustment (upTo l.used cell.value.data)

def beginAll : Except Failure (List Item) := beginIn m l 0 offsetMax

/-- `operator=` with a local list, which is destroyed. -/
def assign (list : ByteTagList) : Except Failure (Memory × ByteTagList) := do
  let m ← m.deallocate l.data
  let m ← m.share list.data
  let m ← m.deallocate list.data
  return (m, list)

def adjust (adjustment : Int) : Except Failure ByteTagList := do
  let adjustment ← offset (l.adjustment + adjustment)
  return { l with adjustment := adjustment }

/-- The bounds that are changed here in the source are those of the list that is replaced. -/
def addAtEnd (appendOffset : Int) : Except Failure (Memory × ByteTagList) := do
  let bound ← offset (appendOffset - l.adjustment)
  if l.maxEnd ≤ bound then return (m, l)
  else
    let items ← beginAll m l
    let kept := items.filter fun it => ¬it.start ≥ appendOffset
    let (m, list) ← m.addItems initial
      (kept.map fun it => { it with stop := min it.stop appendOffset })
    assign m l list

def addAtStart (prependOffset : Int) : Except Failure (Memory × ByteTagList) := do
  let bound ← offset (prependOffset - l.adjustment)
  if l.minStart ≥ bound then return (m, l)
  else
    let items ← beginAll m l
    let kept := items.filter fun it => ¬it.stop ≤ prependOffset
    let (m, list) ← m.addItems initial
      (kept.map fun it => { it with start := max it.start prependOffset })
    assign m l list

/-- `Add` of another list. -/
def addList (o : ByteTagList) : Except Failure (Memory × ByteTagList) := do
  let items ← beginAll m o
  m.addItems l items

/-- `RemoveAll`. -/
def removeAll : Except Failure (Memory × ByteTagList) := do
  let m ← m.deallocate l.data
  return (m, initial)

end Lists

/-- The size of the buffer and the tags. -/
structure Packet where
  size : Nat
  byteTagList : ByteTagList
  deriving DecidableEq

structure Packets where
  memory : Memory
  packets : List Packet
  deriving DecidableEq

namespace Packets

variable (s : Packets)

def get (i : Nat) : Except Failure Packet :=
  match s.packets[i]? with
  | none => .error .invalid
  | some p => .ok p

def put (m : Memory) (i : Nat) (p : Packet) : Packets := ⟨m, s.packets.set i p⟩

/-- The size stays an offset. -/
def grow (p : Packet) (size : Nat) : Except Failure Nat := do
  let _ ← offset (p.size + size)
  return p.size + size

def create (size : Nat) : Except Failure Packets := do
  let _ ← offset size
  return ⟨s.memory, s.packets ++ [⟨size, initial⟩]⟩

def copy (i : Nat) : Except Failure Packets := do
  let p ← s.get i
  let m ← s.memory.share p.byteTagList.data
  return ⟨m, s.packets ++ [p]⟩

/-- The new packet copies the local list, which is destroyed. -/
def createFragment (i start length : Nat) : Except Failure Packets := do
  let p ← s.get i
  let _ ← offset start
  let m ← s.memory.share p.byteTagList.data
  let byteTagList ← adjust p.byteTagList (-start)
  if p.size < start + length then throw .invalid
  let m ← m.share byteTagList.data
  let m ← m.deallocate byteTagList.data
  return ⟨m, s.packets ++ [⟨p.size - start - (p.size - (start + length)), byteTagList⟩]⟩

def addByteTag (i : Nat) (tag : Tag) : Except Failure Packets := do
  let p ← s.get i
  let size ← offset p.size
  let (m, byteTagList) ← s.memory.add p.byteTagList tag 0 size
  return s.put m i { p with byteTagList := byteTagList }

def addByteTagRange (i : Nat) (tag : Tag) (start stop : Nat) : Except Failure Packets := do
  let p ← s.get i
  if stop < start then throw .invalid
  let start ← offset start
  let stop ← offset stop
  let (m, byteTagList) ← s.memory.add p.byteTagList tag start stop
  return s.put m i { p with byteTagList := byteTagList }

def addHeader (i size : Nat) : Except Failure Packets := do
  let p ← s.get i
  let newSize ← grow p size
  let byteTagList ← adjust p.byteTagList size
  let (m, byteTagList) ← addAtStart s.memory byteTagList size
  return s.put m i ⟨newSize, byteTagList⟩

def removeAtStart (i size : Nat) : Except Failure Packets := do
  let p ← s.get i
  let _ ← offset size
  let byteTagList ← adjust p.byteTagList (-size)
  return s.put s.memory i ⟨p.size - size, byteTagList⟩

/-- The header that was deserialized is removed. -/
def removeHeader (i deserialized : Nat) : Except Failure Packets := s.removeAtStart i deserialized

def addPaddingAtEnd (i size : Nat) : Except Failure Packets := do
  let p ← s.get i
  let appendOffset ← offset p.size
  let (m, byteTagList) ← addAtEnd s.memory p.byteTagList appendOffset
  let newSize ← grow p size
  return s.put m i ⟨newSize, byteTagList⟩

def addTrailer (i size : Nat) : Except Failure Packets := s.addPaddingAtEnd i size

def removeAtEnd (i size : Nat) : Except Failure Packets := do
  let p ← s.get i
  return s.put s.memory i { p with size := p.size - size }

/-- The trailer that was deserialized is removed. -/
def removeTrailer (i deserialized : Nat) : Except Failure Packets := s.removeAtEnd i deserialized

/-- `AddAtEnd` of another packet, or of the same one. -/
def addPacketAtEnd (i j : Nat) : Except Failure Packets := do
  let p ← s.get i
  let size ← offset p.size
  let (m, byteTagList) ← addAtEnd s.memory p.byteTagList size
  let packet ← (s.put m i { p with byteTagList := byteTagList }).get j
  let m ← m.share packet.byteTagList.data
  let (m, copy) ← addAtStart m packet.byteTagList 0
  let copy ← adjust copy size
  let (m, byteTagList) ← addList m byteTagList copy
  let newSize ← grow p packet.size
  let m ← m.deallocate copy.data
  return s.put m i ⟨newSize, byteTagList⟩

def removeAllByteTags (i : Nat) : Except Failure Packets := do
  let p ← s.get i
  let (m, byteTagList) ← removeAll s.memory p.byteTagList
  return s.put m i { p with byteTagList := byteTagList }

end Packets

/-- `GetByteTagIterator`. -/
def getByteTagIterator (m : Memory) (p : Packet) : Except Failure (List Item) := do
  let size ← offset p.size
  beginIn m p.byteTagList 0 size

inductive Action
  | create (size : Nat)
  | copy (i : Nat)
  | createFragment (i start length : Nat)
  | addByteTag (i : Nat) (tag : Tag)
  | addByteTagRange (i : Nat) (tag : Tag) (start stop : Nat)
  | addHeader (i size : Nat)
  | removeHeader (i deserialized : Nat)
  | addTrailer (i size : Nat)
  | removeTrailer (i deserialized : Nat)
  | addAtEnd (i j : Nat)
  | addPaddingAtEnd (i size : Nat)
  | removeAtStart (i size : Nat)
  | removeAtEnd (i size : Nat)
  | removeAllByteTags (i : Nat)

def perform (s : Packets) : Action → Except Failure Packets
  | .create size => s.create size
  | .copy i => s.copy i
  | .createFragment i start length => s.createFragment i start length
  | .addByteTag i tag => s.addByteTag i tag
  | .addByteTagRange i tag start stop => s.addByteTagRange i tag start stop
  | .addHeader i size => s.addHeader i size
  | .removeHeader i deserialized => s.removeHeader i deserialized
  | .addTrailer i size => s.addTrailer i size
  | .removeTrailer i deserialized => s.removeTrailer i deserialized
  | .addAtEnd i j => s.addPacketAtEnd i j
  | .addPaddingAtEnd i size => s.addPaddingAtEnd i size
  | .removeAtStart i size => s.removeAtStart i size
  | .removeAtEnd i size => s.removeAtEnd i size
  | .removeAllByteTags i => s.removeAllByteTags i

/-! ## 2. Statement -/

/-- The tags of each byte of a packet. -/
abbrev Bytes := List (List Tag)

/-- New bytes have no tags. -/
def untagged (size : Nat) : Bytes := List.replicate size []

/-- The bytes of a packet, of which there are none for an index out of range. -/
def bytesAt (packets : List Bytes) (i : Nat) : Bytes := packets.getD i []

/-- The tag is added to the bytes of a range. -/
def tagged (bytes : Bytes) (tag : Tag) (start stop : Nat) : Bytes :=
  bytes.mapIdx fun k tags => if start ≤ k ∧ k < stop then tag :: tags else tags

/-- What is done to bytes that have their own tags. -/
def onBytes (packets : List Bytes) : Action → List Bytes
  | .create size => packets ++ [untagged size]
  | .copy i => packets ++ [bytesAt packets i]
  | .createFragment i start length => packets ++ [((bytesAt packets i).drop start).take length]
  | .addByteTag i tag =>
    packets.set i (tagged (bytesAt packets i) tag 0 (bytesAt packets i).length)
  | .addByteTagRange i tag start stop => packets.set i (tagged (bytesAt packets i) tag start stop)
  | .addHeader i size => packets.set i (untagged size ++ bytesAt packets i)
  | .removeHeader i deserialized => packets.set i ((bytesAt packets i).drop deserialized)
  | .addTrailer i size => packets.set i (bytesAt packets i ++ untagged size)
  | .removeTrailer i deserialized =>
    packets.set i ((bytesAt packets i).take ((bytesAt packets i).length - deserialized))
  | .addAtEnd i j => packets.set i (bytesAt packets i ++ bytesAt packets j)
  | .addPaddingAtEnd i size => packets.set i (bytesAt packets i ++ untagged size)
  | .removeAtStart i size => packets.set i ((bytesAt packets i).drop size)
  | .removeAtEnd i size =>
    packets.set i ((bytesAt packets i).take ((bytesAt packets i).length - size))
  | .removeAllByteTags i => packets.set i (untagged (bytesAt packets i).length)

/-- A call, with the bytes beside the packets. -/
def step (x : Packets × List Bytes) (action : Action) : Except Failure (Packets × List Bytes) :=
  (perform x.1 action).map fun s => (s, onBytes x.2 action)

/-- The packets exist, a range does not end before it starts, and a fragment is inside. -/
def Proper (packets : List Bytes) : Action → Prop
  | .create _ => True
  | .createFragment i start length =>
    i < packets.length ∧ start + length ≤ (bytesAt packets i).length
  | .addByteTagRange i _ start stop => i < packets.length ∧ start ≤ stop
  | .addAtEnd i j => i < packets.length ∧ j < packets.length
  | .copy i | .addByteTag i _ | .addHeader i _ | .removeHeader i _ | .addTrailer i _
  | .removeTrailer i _ | .addPaddingAtEnd i _ | .removeAtStart i _ | .removeAtEnd i _
  | .removeAllByteTags i => i < packets.length

instance decidableProper (packets : List Bytes) : ∀ action, Decidable (Proper packets action)
  | .create _ => isTrue trivial
  | .createFragment i start length => inferInstanceAs
    (Decidable (i < packets.length ∧ start + length ≤ (bytesAt packets i).length))
  | .addByteTagRange i _ start stop =>
    inferInstanceAs (Decidable (i < packets.length ∧ start ≤ stop))
  | .addAtEnd i j => inferInstanceAs (Decidable (i < packets.length ∧ j < packets.length))
  | .copy i | .addByteTag i _ | .addHeader i _ | .removeHeader i _ | .addTrailer i _
  | .removeTrailer i _ | .addPaddingAtEnd i _ | .removeAtStart i _ | .removeAtEnd i _
  | .removeAllByteTags i => inferInstanceAs (Decidable (i < packets.length))

/-- The lists that share a buffer. -/
def Packets.sharers (s : Packets) (a : Nat) : Nat :=
  (s.packets.map fun p => p.byteTagList.data).count (some a)

/-- One more list can share a buffer. -/
def Roomy (s : Packets) : Prop := ∀ a < s.memory.heap.length, s.sharers a + 1 < 2 ^ 32

instance (s : Packets) : Decidable (Roomy s) :=
  inferInstanceAs (Decidable (∀ a < s.memory.heap.length, s.sharers a + 1 < 2 ^ 32))

/-- There is an item with the tag and a range that has the place. -/
def Reports (items : List Item) (tag : Tag) (k : Int) : Prop :=
  ∃ it ∈ items, it.tag = tag ∧ it.start ≤ k ∧ k < it.stop

/-- No packets yet. -/
def start : Packets × List Bytes := (⟨⟨[], [], 0⟩, []⟩, [])

/-- The iterators return the tags of the bytes, and a call returns, unless an offset overflows. -/
structure TagsOfBytes (x : Packets × List Bytes) : Prop where
  sizes : x.1.packets.map Packet.size = x.2.map List.length
  tags : ∀ (i : Nat) (p : Packet) (bytes : Bytes), x.1.packets[i]? = some p →
    x.2[i]? = some bytes →
    getByteTagIterator x.1.memory p = .error .overflow ∨
      ∃ items, getByteTagIterator x.1.memory p = .ok items ∧
        ∀ (tag : Tag) (k : Nat), Reports items tag k ↔ ∃ tags, bytes[k]? = some tags ∧ tag ∈ tags
  proceeds : ∀ action, Proper x.2 action → Roomy x.1 →
    perform x.1 action = .error .overflow ∨ ∃ s, perform x.1 action = .ok s

/-! ## 3. Items -/

/-- What a computation returns, unless an offset overflows. -/
abbrev Returns {α : Type} (x : Except Failure α) (P : α → Prop) : Prop :=
  ReturnsUnless Failure.overflow x P

theorem returns_offset (x : Int) :
    Returns (offset x) fun y => y = x ∧ -2 ^ 31 ≤ x ∧ x ≤ offsetMax := by
  unfold offset
  split
  · next h => exact returnsUnless_ok ⟨rfl, h.1, Int.le_sub_one_of_lt h.2⟩
  · exact .inl rfl

/-- The bytes of items. -/
def sizeOf (items : List Item) : Nat := (items.map Item.size).sum

/-- The item as it is stored when the origin is at the adjustment. -/
def Item.stored (adjustment : Int) (it : Item) : Item :=
  ⟨it.tag, it.start - adjustment, it.stop - adjustment⟩

section Items

variable {items data : List Item} {tag : Tag} {k adjustment : Int}

theorem size_pos (it : Item) : 0 < it.size := Nat.succ_pos _

theorem sizeOf_append (items data : List Item) :
    sizeOf (items ++ data) = sizeOf items + sizeOf data := by
  unfold sizeOf
  rw [map_append, sum_append]

theorem sizeOf_singleton (it : Item) : sizeOf [it] = it.size := add_zero _

theorem upTo_append (items data : List Item) : upTo (sizeOf items) (items ++ data) = items := by
  induction items with
  | nil =>
    cases data with
    | nil => rfl
    | cons it data => exact if_pos (size_pos it)
  | cons it items ih =>
    show (if it.size + sizeOf items < it.size then []
      else it :: upTo (it.size + sizeOf items - it.size) (items ++ data)) = it :: items
    rw [if_neg (Nat.not_lt.mpr (Nat.le_add_right _ _)), Nat.add_sub_cancel_left, ih]

theorem upTo_of_prefix (h : items <+: data) : upTo (sizeOf items) data = items := by
  obtain ⟨rest, rfl⟩ := h
  exact upTo_append items rest

theorem eq_of_sizeOf (h : items <+: data) (hsize : sizeOf data = sizeOf items) : data = items := by
  obtain ⟨rest, rfl⟩ := h
  rw [sizeOf_append] at hsize
  cases rest with
  | nil => exact append_nil items
  | cons it rest =>
    have hpos := size_pos it
    have hcons : sizeOf (it :: rest) = it.size + sizeOf rest := rfl
    omega

theorem reports_nil : ¬Reports [] tag k := by
  rintro ⟨it, hit, -⟩
  cases hit

theorem reports_cons {it : Item} : Reports (it :: items) tag k ↔
      it.tag = tag ∧ it.start ≤ k ∧ k < it.stop ∨ Reports items tag k := by
  unfold Reports
  rw [exists_mem_cons_iff]

theorem reports_append :
    Reports (items ++ data) tag k ↔ Reports items tag k ∨ Reports data tag k := by
  unfold Reports
  simp only [mem_append, or_and_right, exists_or]

theorem reports_map {f : Item → Item} : Reports (items.map f) tag k ↔
    ∃ it ∈ items, (f it).tag = tag ∧ (f it).start ≤ k ∧ k < (f it).stop := by
  unfold Reports
  simp only [mem_map, exists_exists_and_eq_and]

theorem reports_stored : Reports (items.map (Item.stored adjustment)) tag (k - adjustment) ↔
    Reports items tag k := by
  rw [reports_map]
  refine exists_congr fun it => and_congr_right fun _ => and_congr_right fun _ => ?_
  exact and_congr (Int.sub_le_sub_right_iff) (Int.sub_lt_sub_right_iff)

theorem visible_ok (offsetStart offsetEnd adjustment : Int) (items : List Item) :
    Returns (visible offsetStart offsetEnd adjustment items) fun seen =>
      ∀ tag k, Reports seen tag k ↔
        Reports items tag (k - adjustment) ∧ offsetStart ≤ k ∧ k < offsetEnd := by
  induction items with
  | nil =>
    refine returnsUnless_ok fun tag k => ?_
    exact iff_of_false reports_nil fun h => reports_nil h.1
  | cons it items ih =>
    refine (returns_offset _).bind fun nextStart hstart => (returns_offset _).bind fun nextEnd hend =>
      ih.bind fun seen hseen => ?_
    obtain ⟨rfl, -⟩ := hstart
    obtain ⟨rfl, -⟩ := hend
    split
    · next hout =>
      refine returnsUnless_ok fun tag k => ?_
      rw [hseen, reports_cons]
      constructor
      · rintro ⟨hreports, hbounds⟩
        exact ⟨.inr hreports, hbounds⟩
      · rintro ⟨⟨-, hle, hlt⟩ | hreports, hbounds⟩
        · omega
        · exact ⟨hreports, hbounds⟩
    · refine returnsUnless_ok fun tag k => ?_
      rw [reports_cons, reports_cons, hseen, or_and_right]
      refine or_congr_left ?_
      dsimp only
      rw [max_le_iff, lt_min_iff, ← le_sub_iff_add_le, ← sub_lt_iff_lt_add]
      constructor
      · rintro ⟨htag, ⟨hle, hstart⟩, hlt, hend⟩
        exact ⟨⟨htag, hle, hlt⟩, hstart, hend⟩
      · rintro ⟨⟨htag, hle, hlt⟩, hstart, hend⟩
        exact ⟨htag, ⟨hle, hstart⟩, hlt, hend⟩

theorem reports_cut_end {appendOffset : Int} :
    Reports ((items.filter fun it => ¬it.start ≥ appendOffset).map
      fun it => { it with stop := min it.stop appendOffset }) tag k ↔
      Reports items tag k ∧ k < appendOffset := by
  rw [reports_map]
  constructor
  · rintro ⟨it, hit, htag, hle, hlt⟩
    exact ⟨⟨it, mem_of_mem_filter hit, htag, hle, (lt_min_iff.mp hlt).1⟩, (lt_min_iff.mp hlt).2⟩
  · rintro ⟨⟨it, hit, htag, hle, hlt⟩, hcut⟩
    refine ⟨it, mem_filter.mpr ⟨hit, decide_eq_true ?_⟩, htag, hle, lt_min_iff.mpr ⟨hlt, hcut⟩⟩
    exact Int.not_le.mpr (Int.lt_of_le_of_lt hle hcut)

theorem reports_cut_start {prependOffset : Int} :
    Reports ((items.filter fun it => ¬it.stop ≤ prependOffset).map
      fun it => { it with start := max it.start prependOffset }) tag k ↔
      Reports items tag k ∧ prependOffset ≤ k := by
  rw [reports_map]
  constructor
  · rintro ⟨it, hit, htag, hle, hlt⟩
    exact ⟨⟨it, mem_of_mem_filter hit, htag, (max_le_iff.mp hle).1, hlt⟩, (max_le_iff.mp hle).2⟩
  · rintro ⟨⟨it, hit, htag, hle, hlt⟩, hcut⟩
    refine ⟨it, mem_filter.mpr ⟨hit, decide_eq_true ?_⟩, htag, max_le_iff.mpr ⟨hle, hcut⟩, hlt⟩
    exact Int.not_le.mpr (Int.lt_of_le_of_lt hcut hlt)

end Items

/-! ## 4. Memory -/

/-- The items of a list are the first ones in its buffer, and the bounds are theirs. -/
structure Holds (m : Memory) (l : ByteTagList) (items : List Item) : Prop where
  used : l.used = sizeOf items
  empty : l.data = none → items = []
  stored : ∀ a, l.data = some a → ∃ value, m.heap.value? a = some value ∧ items <+: value.data
  minStart : ∀ it ∈ items, l.minStart ≤ it.start
  maxEnd : ∀ it ∈ items, it.stop ≤ l.maxEnd

/-- Lists with their items. -/
abbrev Lists := List (ByteTagList × List Item)

def Lists.pointers (live : Lists) : List (Option Nat) := live.map fun x => x.1.data

/-- No more lists than this share a buffer. -/
def Few (n : Nat) (pointers : List (Option Nat)) : Prop := ∀ a, pointers.count (some a) ≤ n

/-- The memory of all lists there are. -/
structure Kept (m : Memory) (live : Lists) : Prop where
  counted : Counted m.heap live.pointers
  holds : ∀ x ∈ live, Holds m x.1 x.2
  clean : ∀ a value, m.heap.value? a = some value → value.dirty = sizeOf value.data

section Memory

variable {m m' : Memory} {l list : ByteTagList} {items items' : List Item} {live live' : Lists}
  {n a : Nat} {cell : Cell ByteTagListData}

theorem Kept.perm (hk : Kept m live) (hperm : live.Perm live') : Kept m live' where
  counted := hk.counted.perm (hperm.map _)
  holds := fun x hx => hk.holds x (hperm.mem_iff.mpr hx)
  clean := hk.clean

theorem get_ok (hcell : m.heap.cell? a = some cell) : m.get a = .ok cell := by
  unfold Memory.get
  rw [hcell]

theorem cell_of_value {value : ByteTagListData} (hval : m.heap.value? a = some value) :
    ∃ cell, m.heap.cell? a = some cell ∧ cell.value = value := Option.map_eq_some_iff.mp hval

theorem Holds.congr (h : Holds m l items)
    (hval : ∀ a, l.data = some a → m'.heap.value? a = m.heap.value? a) : Holds m' l items :=
  { h with stored := fun a ha => hval a ha ▸ h.stored a ha }

theorem holds_initial (m : Memory) : Holds m initial [] where
  used := rfl
  empty := fun _ => rfl
  stored := fun a ha => by cases ha
  minStart := forall_mem_nil _
  maxEnd := forall_mem_nil _

theorem Kept.initial (hk : Kept m live) : Kept m ((initial, []) :: live) where
  counted := counted_none.mpr hk.counted
  holds := forall_mem_cons.mpr ⟨holds_initial m, hk.holds⟩
  clean := hk.clean

theorem few_none (hfew : Few n live.pointers) : Few n (none :: live.pointers) := fun a =>
  (count_cons_of_ne (Option.some_ne_none a).symm).trans_le (hfew a)

theorem Few.tail {p : Option Nat} {pointers : List (Option Nat)} (hfew : Few n (p :: pointers)) :
    Few n pointers := fun a => (count_le_count_cons).trans (hfew a)

theorem Few.cons {pointers : List (Option Nat)} (hfew : Few n pointers) (p : Option Nat) :
    Few (n + 1) (p :: pointers) := by
  intro a
  rw [count_cons]
  refine Nat.add_le_add (hfew a) ?_
  split
  · exact Nat.le_refl 1
  · exact Nat.zero_le 1

theorem Few.perm {pointers others : List (Option Nat)} (hfew : Few n pointers)
    (hperm : pointers.Perm others) : Few n others := fun a => hperm.count_eq (some a) ▸ hfew a

theorem perm_pointers (hperm : live.Perm live') : live.pointers.Perm live'.pointers := hperm.map _

theorem deallocate_some (hcell : m.heap.cell? a = some cell) :
    ∃ m', m.deallocate (some a) = .ok m' ∧ m'.heap = m.heap.release a := by
  unfold Memory.deallocate
  dsimp only
  rw [get_ok hcell]
  exact ⟨_, rfl, rfl⟩

theorem deallocate_ok (hk : Kept m ((l, items) :: live)) (hfew : Few n live.pointers)
    (hn : n < 2 ^ 32) : ∃ m', m.deallocate l.data = .ok m' ∧ Kept m' live := by
  obtain ⟨hhead, hrest⟩ := forall_mem_cons.mp hk.holds
  have hcounted : Counted m.heap (l.data :: live.pointers) := hk.counted
  cases hdata : l.data with
  | none =>
    rw [hdata] at hcounted
    exact ⟨m, rfl, counted_none.mp hcounted, hrest, hk.clean⟩
  | some a =>
    rw [hdata] at hcounted
    obtain ⟨cell, hcell⟩ := hcounted.present a mem_cons_self
    obtain ⟨hcounted', hsame, hbefore⟩ := hcounted.release (lt_of_le_of_lt (hfew a) hn)
    obtain ⟨m', hok, hheap⟩ := deallocate_some hcell
    rw [← hheap] at hcounted' hsame hbefore
    refine ⟨m', hok, hcounted', fun x hx => ?_, fun b value hval => ?_⟩
    · exact (hrest x hx).congr fun b hb => hsame b (hb ▸ mem_map_of_mem hx)
    · exact hk.clean b value (hbefore b value hval)

theorem share_ok (hk : Kept m ((l, items) :: live)) :
    ∃ m', m.share l.data = .ok m' ∧ Kept m' ((l, items) :: (l, items) :: live) := by
  have hcounted : Counted m.heap (l.data :: live.pointers) := hk.counted
  have hboth : ∀ x ∈ (l, items) :: (l, items) :: live, Holds m x.1 x.2 :=
    forall_mem_cons.mpr ⟨hk.holds _ mem_cons_self, hk.holds⟩
  cases hdata : l.data with
  | none =>
    refine ⟨m, rfl, ?_, hboth, hk.clean⟩
    show Counted m.heap (l.data :: l.data :: live.pointers)
    rw [hdata] at hcounted ⊢
    exact counted_none.mpr hcounted
  | some a =>
    rw [hdata] at hcounted
    obtain ⟨cell, hcell⟩ := hcounted.present a mem_cons_self
    obtain ⟨hcounted', hsame⟩ := hcounted.retain
    refine ⟨{ m with heap := m.heap.retain a }, ?_, ?_, fun x hx => ?_, fun b value hval => ?_⟩
    · unfold Memory.share
      dsimp only
      rw [get_ok hcell]
      rfl
    · show Counted _ (l.data :: l.data :: live.pointers)
      rw [hdata]
      exact hcounted'
    · exact (hboth x hx).congr fun b _ => hsame b
    · exact hk.clean b value (hsame b ▸ hval)

theorem share_mem (hk : Kept m live) (hmem : (l, items) ∈ live) :
    ∃ m', m.share l.data = .ok m' ∧ Kept m' ((l, items) :: live) := by
  obtain ⟨before, after, rfl⟩ := append_of_mem hmem
  obtain ⟨m', hok, hk'⟩ := share_ok (hk.perm perm_middle)
  exact ⟨m', hok, hk'.perm (perm_middle.symm.cons _)⟩

/-- The buffer for the next item of a list: its own one, or a new one with its items. -/
structure Room (m : Memory) (l : ByteTagList) (items : List Item) (live : Lists) (n : Nat)
    (m' : Memory) (a : Nat) (value : ByteTagListData) : Prop where
  counted : Counted m'.heap (some a :: live.pointers)
  few : Few n (some a :: live.pointers)
  found : m'.heap.value? a = some value
  read : upTo (if l.data.isNone then 0 else l.used) value.data = items
  /-- Other lists with this buffer have no more items. -/
  last : ∀ x ∈ live, x.1.data = some a → value.data = items
  same : ∀ x ∈ live, ∀ b, x.1.data = some b → m'.heap.value? b = m.heap.value? b
  others : ∀ b value, b ≠ a → m'.heap.value? b = some value → m.heap.value? b = some value

theorem value?_alloc (heap : Heap ByteTagListData) (value : ByteTagListData) (b : Nat) :
    (heap.alloc value).value? b = if b = heap.length then some value else heap.value? b := by
  unfold Heap.value?
  rw [cell?_alloc]
  split <;> rfl

theorem value?_setValue (hcell : m.heap.cell? a = some cell) (value : ByteTagListData) (b : Nat) :
    (m.setValue a value).heap.value? b = if b = a then some value else m.heap.value? b := by
  unfold Heap.value? Memory.setValue
  rw [cell?_setValue hcell]
  split <;> rfl

theorem few_fresh {heap : Heap ByteTagListData} {pointers : List (Option Nat)}
    (hcounted : Counted heap pointers) (hfew : Few n pointers) (hpos : 1 ≤ n) :
    Few n (some heap.length :: pointers) := by
  intro a
  by_cases heq : a = heap.length
  · have hfresh : pointers.count (some heap.length) = 0 :=
      count_eq_zero.mpr fun hmem => lt_irrefl _ (hcounted.lt hmem)
    rw [heq, count_cons_self, hfresh]
    exact hpos
  · rw [count_cons_of_ne fun h => heq (Option.some.inj h).symm]
    exact hfew a

section

variable (hk : Kept m ((l, items) :: live)) (hfew : Few n (l.data :: live.pointers)) (hpos : 1 ≤ n)
  (hn : n < 2 ^ 32)
include hk hfew hpos hn

theorem room_ok (spaceNeeded : Nat) :
    ∃ m' a value, m.room l spaceNeeded = .ok (m', a) ∧ Room m l items live n m' a value := by
  have hhead : Holds m l items := hk.holds _ mem_cons_self
  have hcounted : Counted m.heap (l.data :: live.pointers) := hk.counted
  have hbelow : ∀ x ∈ live, ∀ b, x.1.data = some b → b < m.heap.length := fun x hx b hb =>
    hcounted.lt (mem_cons_of_mem _ (hb ▸ mem_map_of_mem hx))
  cases hdata : l.data with
  | none =>
    rw [hdata] at hcounted
    have hcounted := counted_none.mp hcounted
    refine ⟨_, _, _, by unfold Memory.room; rw [hdata]; rfl, hcounted.alloc _,
      few_fresh hcounted hfew.tail hpos, (value?_alloc ..).trans (if_pos rfl), ?_, ?_, ?_, ?_⟩
    · rw [hhead.empty hdata]
      rfl
    · exact fun x hx hb => absurd (hbelow x hx _ hb) (lt_irrefl _)
    · intro x hx b hb
      exact (value?_alloc ..).trans (if_neg (ne_of_lt (hbelow x hx b hb)))
    · intro b value hne hval
      exact ((value?_alloc ..).trans (if_neg hne)).symm.trans hval
  | some a =>
    rw [hdata] at hcounted hfew
    obtain ⟨cell, hcell⟩ := hcounted.present a mem_cons_self
    have hval := value?_eq hcell
    have hitems : items <+: cell.value.data := by
      obtain ⟨value, hval', hprefix⟩ := hhead.stored a hdata
      rw [hval] at hval'
      cases hval'
      exact hprefix
    have hread : upTo l.used cell.value.data = items := hhead.used ▸ upTo_of_prefix hitems
    unfold Memory.room
    rw [hdata]
    dsimp only
    rw [get_ok hcell]
    dsimp only [bind, Except.bind]
    split
    · have hfresh : (m.allocate spaceNeeded).1.heap.cell? m.heap.length =
          some ⟨1, (takeFree spaceNeeded m.freeList).1.getD spaceNeeded, 0, []⟩ :=
        (cell?_alloc ..).trans (if_pos rfl)
      have haddr : (m.allocate spaceNeeded).2 = m.heap.length := rfl
      rw [haddr, get_ok hfresh, hread]
      dsimp only
      generalize hfilled : (m.allocate spaceNeeded).1.setValue m.heap.length
        ⟨(takeFree spaceNeeded m.freeList).1.getD spaceNeeded, 0, items⟩ = filled
      have hvals (b : Nat) : filled.heap.value? b = if b = m.heap.length then
            some ⟨(takeFree spaceNeeded m.freeList).1.getD spaceNeeded, 0, items⟩
          else m.heap.value? b := by
        rw [← hfilled, value?_setValue hfresh]
        split
        · rfl
        · next hne => exact (value?_alloc ..).trans (if_neg hne)
      have hboth : Counted filled.heap (some m.heap.length :: some a :: live.pointers) :=
        hfilled ▸ (hcounted.alloc _).setValue hfresh _
      have hfewBoth := (few_fresh hcounted hfew hpos).perm (.swap ..)
      obtain ⟨cell', hcell'⟩ := hboth.present a (mem_cons_of_mem _ mem_cons_self)
      obtain ⟨m', hok, hheap⟩ := deallocate_some hcell'
      obtain ⟨hcounted', hsame, hbefore⟩ :=
        (hboth.perm (.swap ..)).release (lt_of_le_of_lt (hfewBoth.tail a) hn)
      rw [← hheap] at hcounted' hsame hbefore
      rw [hok]
      refine ⟨m', m.heap.length, ⟨(takeFree spaceNeeded m.freeList).1.getD spaceNeeded, 0, items⟩,
        rfl, hcounted', hfewBoth.tail, ?_, ?_, fun x hx hb => ?_, fun x hx b hb => ?_,
        fun b value hne hval => ?_⟩
      · exact (hsame _ mem_cons_self).trans ((hvals _).trans (if_pos rfl))
      · rw [hdata, hhead.used]
        exact upTo_of_prefix (prefix_refl items)
      · exact absurd (hbelow x hx _ hb) (lt_irrefl _)
      · rw [hsame b (mem_cons_of_mem _ (hb ▸ mem_map_of_mem hx)), hvals,
          if_neg (ne_of_lt (hbelow x hx b hb))]
      · have hbefore := hbefore b value hval
        rw [hvals, if_neg hne] at hbefore
        exact hbefore
    · next hroom =>
      obtain ⟨-, hlast⟩ := not_or.mp hroom
      refine ⟨m, a, cell.value, rfl, hcounted, hfew, hval, by rw [hdata]; exact hread,
        fun x hx hxa => ?_, fun _ _ _ _ => rfl, fun _ _ _ h => h⟩
      by_cases hone : cell.count = 1
      · refine absurd (hxa ▸ mem_map_of_mem hx) (hcounted.unique ?_ hcell hone)
        have hcount := hfew a
        rw [count_cons_self] at hcount
        exact lt_of_le_of_lt hcount hn
      · have hdirty := of_not_not fun hne => hlast ⟨hone, hne⟩
        refine eq_of_sizeOf hitems ?_
        rw [← hk.clean a _ hval, hdirty, hhead.used]

theorem add_ok (tag : Tag) (start stop : Int) :
    Returns (m.add l tag start stop) fun r =>
      Kept r.1 ((r.2, items ++ [Item.stored l.adjustment ⟨tag, start, stop⟩]) :: live) ∧
        Few n (r.2.data :: live.pointers) ∧ r.2.adjustment = l.adjustment := by
  have hhead : Holds m l items := hk.holds _ mem_cons_self
  unfold Memory.add
  dsimp only
  split
  · exact .inl rfl
  · obtain ⟨m', a, value, hok, hroom⟩ := room_ok hk hfew hpos hn
      (l.used + tag.data.length + 4 + 4 + 4 + 4)
    obtain ⟨cell, hcell, rfl⟩ := cell_of_value hroom.found
    rw [hok]
    refine (returns_offset _).bind fun start' hstart => (returns_offset _).bind fun stop' hstop => ?_
    obtain ⟨rfl, -⟩ := hstart
    obtain ⟨rfl, -⟩ := hstop
    rw [get_ok hcell]
    dsimp only [bind, Except.bind]
    rw [hroom.read]
    generalize hit : Item.stored l.adjustment ⟨tag, start, stop⟩ = it
    have hliteral : (⟨tag, start - l.adjustment, stop - l.adjustment⟩ : Item) = it := hit
    have hsize : sizeOf (items ++ [it]) = l.used + tag.data.length + 4 + 4 + 4 + 4 := by
      rw [sizeOf_append, sizeOf_singleton, hhead.used, ← hit]
      rfl
    have hvals := value?_setValue hcell
      ⟨cell.value.size, l.used + tag.data.length + 4 + 4 + 4 + 4, items ++ [it]⟩
    rw [hliteral]
    refine returnsUnless_ok ⟨⟨hroom.counted.setValue hcell _, forall_mem_cons.mpr
      ⟨⟨hsize.symm, nofun, fun b hb => ?_, ?_, ?_⟩, fun x hx => ?_⟩,
      fun b value hval => ?_⟩, hroom.few, rfl⟩
    · cases hb
      exact ⟨_, (hvals a).trans (if_pos rfl), prefix_refl _⟩
    · rw [← hit]
      refine forall_mem_append.mpr ⟨fun it hit => ?_, forall_mem_singleton.mpr ?_⟩
      · exact (min_le_right _ _).trans (hhead.minStart it hit)
      · exact min_le_left _ _
    · rw [← hit]
      refine forall_mem_append.mpr ⟨fun it hit => ?_, forall_mem_singleton.mpr ?_⟩
      · exact (hhead.maxEnd it hit).trans (le_max_right _ _)
      · exact le_max_left _ _
    · have hother : Holds m x.1 x.2 := hk.holds x (mem_cons_of_mem _ hx)
      refine { hother with stored := fun b hb => ?_ }
      obtain ⟨value, hval, hprefix⟩ := hother.stored b hb
      rw [← hroom.same x hx b hb] at hval
      rw [hvals]
      split
      · next heq =>
        subst heq
        rw [hroom.found] at hval
        cases hval
        rw [hroom.last x hx hb] at hprefix
        exact ⟨_, rfl, hprefix.trans (prefix_append items [it])⟩
      · exact ⟨value, hval, hprefix⟩
    · rw [hvals] at hval
      split at hval
      · cases hval
        exact hsize.symm
      · next hne => exact hk.clean b value (hroom.others b value hne hval)

end

theorem addItems_ok (added : List Item) (hk : Kept m ((l, items) :: live))
    (hfew : Few n (l.data :: live.pointers)) (hpos : 1 ≤ n) (hn : n < 2 ^ 32) :
    Returns (m.addItems l added) fun r =>
      Kept r.1 ((r.2, items ++ added.map (Item.stored l.adjustment)) :: live) ∧
        Few n (r.2.data :: live.pointers) ∧ r.2.adjustment = l.adjustment := by
  induction added generalizing m l items with
  | nil =>
    refine returnsUnless_ok ⟨?_, hfew, rfl⟩
    rw [map_nil, append_nil]
    exact hk
  | cons it added ih =>
    refine (add_ok hk hfew hpos hn it.tag it.start it.stop).bind fun r hr => ?_
    obtain ⟨hk', hfew', hadjustment⟩ := hr
    refine (ih hk' hfew').mono fun r' hr' => ?_
    rw [hadjustment, append_assoc] at hr'
    exact hr'

theorem beginIn_ok (hk : Kept m live) (hmem : (l, items) ∈ live) (offsetStart offsetEnd : Int) :
    Returns (beginIn m l offsetStart offsetEnd) fun seen => ∀ tag k, Reports seen tag k ↔
      Reports items tag (k - l.adjustment) ∧ offsetStart ≤ k ∧ k < offsetEnd := by
  have hholds : Holds m l items := hk.holds _ hmem
  unfold beginIn
  split
  · next hdata =>
    refine returnsUnless_ok fun tag k => ?_
    rw [hholds.empty hdata]
    exact iff_of_false reports_nil fun h => reports_nil h.1
  · next a hdata =>
    obtain ⟨value, hval, hprefix⟩ := hholds.stored a hdata
    obtain ⟨cell, hcell, rfl⟩ := cell_of_value hval
    rw [get_ok hcell]
    show Returns (visible _ _ _ (upTo l.used cell.value.data)) _
    rw [hholds.used, upTo_of_prefix hprefix]
    exact visible_ok ..

theorem assign_ok (hk : Kept m ((list, items') :: (l, items) :: live))
    (hfew : Few n (list.data :: live.pointers)) (hn : n < 2 ^ 32) :
    ∃ m', assign m l list = .ok (m', list) ∧ Kept m' ((list, items') :: live) := by
  obtain ⟨m₁, hok₁, hk₁⟩ := deallocate_ok (hk.perm (.swap ..)) hfew hn
  obtain ⟨m₂, hok₂, hk₂⟩ := share_ok hk₁
  obtain ⟨m₃, hok₃, hk₃⟩ := deallocate_ok hk₂ hfew hn
  refine ⟨m₃, ?_, hk₃⟩
  unfold assign
  rw [hok₁]
  dsimp only [bind, Except.bind]
  rw [hok₂]
  dsimp only
  rw [hok₃]
  rfl

theorem replace_ok (added : List Item) (hk : Kept m ((l, items) :: live))
    (hfew : Few n (l.data :: live.pointers)) (hpos : 1 ≤ n) (hn : n < 2 ^ 32) :
    Returns (do
        let r ← m.addItems initial added
        assign r.1 l r.2) fun r =>
      Kept r.1 ((r.2, added.map (Item.stored 0)) :: live) ∧
        Few n (r.2.data :: live.pointers) ∧ r.2.adjustment = 0 := by
  refine (addItems_ok added hk.initial (few_none hfew) hpos hn).bind fun r hr => ?_
  obtain ⟨hk', hfew', hadjustment⟩ := hr
  have hfewRest := (hfew'.perm (.swap ..)).tail
  obtain ⟨m', hok, hassigned⟩ := assign_ok hk' hfewRest hn
  rw [hok]
  exact returnsUnless_ok ⟨hassigned, hfewRest, hadjustment⟩

section

variable (hk : Kept m ((l, items) :: live)) (hfew : Few n (l.data :: live.pointers)) (hpos : 1 ≤ n)
  (hn : n < 2 ^ 32)
include hk hfew hpos hn

theorem addAtEnd_ok {appendOffset : Int} (hmax : appendOffset ≤ offsetMax) :
    Returns (addAtEnd m l appendOffset) fun r => ∃ items',
      Kept r.1 ((r.2, items') :: live) ∧ Few n (r.2.data :: live.pointers) ∧
        ∀ tag k, 0 ≤ k → (Reports items' tag (k - r.2.adjustment) ↔
          Reports items tag (k - l.adjustment) ∧ k < appendOffset) := by
  refine (returns_offset _).bind fun bound hbound => ?_
  obtain ⟨rfl, -⟩ := hbound
  split
  · next hinside =>
    refine returnsUnless_ok ⟨items, hk, hfew, fun tag k _ => (and_iff_left_of_imp ?_).symm⟩
    rintro ⟨it, hit, -, -, hlt⟩
    have hholds : Holds m l items := hk.holds _ mem_cons_self
    have hend := hholds.maxEnd it hit
    have hlt : k - l.adjustment < it.stop := hlt
    omega
  · refine (beginIn_ok hk mem_cons_self 0 offsetMax).bind fun seen hseen => ?_
    refine (replace_ok _ hk hfew hpos hn).mono fun r hr => ?_
    obtain ⟨hk', hfew', hadjustment⟩ := hr
    refine ⟨_, hk', hfew', fun tag k hk => ?_⟩
    rw [hadjustment, reports_stored, reports_cut_end, hseen, and_assoc]
    refine and_congr_right fun _ => ⟨fun h => h.2, fun hlt => ⟨⟨hk, ?_⟩, hlt⟩⟩
    exact Int.lt_of_lt_of_le hlt hmax

theorem addAtStart_ok {prependOffset : Int} (hmin : 0 ≤ prependOffset) :
    Returns (addAtStart m l prependOffset) fun r => ∃ items',
      Kept r.1 ((r.2, items') :: live) ∧ Few n (r.2.data :: live.pointers) ∧
        ∀ tag k, k < offsetMax → (Reports items' tag (k - r.2.adjustment) ↔
          Reports items tag (k - l.adjustment) ∧ prependOffset ≤ k) := by
  refine (returns_offset _).bind fun bound hbound => ?_
  obtain ⟨rfl, -⟩ := hbound
  split
  · next hinside =>
    refine returnsUnless_ok ⟨items, hk, hfew, fun tag k _ => (and_iff_left_of_imp ?_).symm⟩
    rintro ⟨it, hit, -, hle, -⟩
    have hholds : Holds m l items := hk.holds _ mem_cons_self
    have hstart := hholds.minStart it hit
    have hle : it.start ≤ k - l.adjustment := hle
    omega
  · refine (beginIn_ok hk mem_cons_self 0 offsetMax).bind fun seen hseen => ?_
    refine (replace_ok _ hk hfew hpos hn).mono fun r hr => ?_
    obtain ⟨hk', hfew', hadjustment⟩ := hr
    refine ⟨_, hk', hfew', fun tag k hlt => ?_⟩
    rw [hadjustment, reports_stored, reports_cut_start, hseen]
    exact and_congr_left fun hcut => and_iff_left ⟨hmin.trans hcut, hlt⟩

end

theorem addList_ok {o : ByteTagList} (hk : Kept m ((l, items) :: (o, items') :: live))
    (hfew : Few n (l.data :: o.data :: live.pointers)) (hpos : 1 ≤ n) (hn : n < 2 ^ 32) :
    Returns (addList m l o) fun r => ∃ both, Kept r.1 ((r.2, both) :: (o, items') :: live) ∧
      Few n (r.2.data :: o.data :: live.pointers) ∧ ∀ tag k, 0 ≤ k → k < offsetMax → (Reports both tag (k - r.2.adjustment) ↔
        Reports items tag (k - l.adjustment) ∨ Reports items' tag (k - o.adjustment)) := by
  refine (beginIn_ok hk (mem_cons_of_mem _ mem_cons_self) 0 offsetMax).bind
    fun seen hseen => (addItems_ok seen hk hfew hpos hn).mono fun r hr => ?_
  obtain ⟨hk', hfew', hadjustment⟩ := hr
  refine ⟨_, hk', hfew', fun tag k hk hlt => ?_⟩
  rw [reports_append, hadjustment, reports_stored, hseen, and_iff_left ⟨hk, hlt⟩]

theorem removeAll_ok (hk : Kept m ((l, items) :: live)) (hfew : Few n live.pointers)
    (hn : n < 2 ^ 32) :
    ∃ m', removeAll m l = .ok (m', initial) ∧ Kept m' ((initial, []) :: live) := by
  obtain ⟨m', hok, hk'⟩ := deallocate_ok hk hfew hn
  refine ⟨m', ?_, hk'.initial⟩
  unfold removeAll
  rw [hok]
  rfl

theorem adjust_ok (l : ByteTagList) (adjustment : Int) :
    Returns (adjust l adjustment) fun l' =>
      l' = { l with adjustment := l.adjustment + adjustment } := by
  refine (returns_offset _).bind fun y hy => ?_
  obtain ⟨rfl, -⟩ := hy
  exact returnsUnless_ok rfl

theorem Kept.adjust (hk : Kept m ((l, items) :: live)) (adjustment : Int) :
    Kept m (({ l with adjustment := adjustment }, items) :: live) where
  counted := hk.counted
  holds := by
    obtain ⟨hhead, hrest⟩ := forall_mem_cons.mp hk.holds
    exact forall_mem_cons.mpr
      ⟨⟨hhead.used, hhead.empty, hhead.stored, hhead.minStart, hhead.maxEnd⟩, hrest⟩
  clean := hk.clean

end Memory

/-! ## 5. Packets -/

/-- A packet with the items of its list and its bytes. -/
structure Entry where
  packet : Packet
  items : List Item
  bytes : Bytes
  size : packet.size = bytes.length
  reports : ∀ (k : Nat) (tags : List Tag), bytes[k]? = some tags →
    ∀ tag, Reports items tag (k - packet.byteTagList.adjustment) ↔ tag ∈ tags

def Entry.live (e : Entry) : ByteTagList × List Item := (e.packet.byteTagList, e.items)

/-- The packets and the bytes are those of the entries. -/
structure Tracked (x : Packets × List Bytes) (entries : List Entry) : Prop where
  packets : x.1.packets = entries.map Entry.packet
  bytes : x.2 = entries.map Entry.bytes
  kept : Kept x.1.memory (entries.map Entry.live)

/-- What an action on a packet leaves: an entry with new bytes. -/
def Puts (s : Packets) (entries : List Entry) (i : Nat) (bytes : Bytes) (s' : Packets) : Prop :=
  ∃ (m : Memory) (e : Entry), s' = s.put m i e.packet ∧ e.bytes = bytes ∧
    Kept m (e.live :: (entries.eraseIdx i).map Entry.live)

/-- What an action that makes a packet leaves. -/
def Appends (s : Packets) (entries : List Entry) (bytes : Bytes) (s' : Packets) : Prop :=
  ∃ (m : Memory) (e : Entry), s' = ⟨m, s.packets ++ [e.packet]⟩ ∧ e.bytes = bytes ∧
    Kept m (e.live :: entries.map Entry.live)

section Entries

variable {s : Packets} {x : Packets × List Bytes} {entries : List Entry} {bytes : Bytes}
  {i n size k : Nat} {tag : Tag} {tags : List Tag}

theorem perm_focus (hi : i < entries.length) : (entries.map Entry.live).Perm
    (entries[i].live :: (entries.eraseIdx i).map Entry.live) :=
  (getElem_cons_eraseIdx_perm hi).symm.map Entry.live

section

variable (h : Tracked x entries) (hi : i < entries.length)
include h hi

theorem Tracked.focus : Kept x.1.memory (entries[i].live :: (entries.eraseIdx i).map Entry.live) :=
  h.kept.perm (perm_focus hi)

theorem Tracked.get : x.1.get i = .ok entries[i].packet := by
  unfold Packets.get
  rw [h.packets, getElem?_map, getElem?_eq_getElem hi]
  rfl

theorem Tracked.bytesAt : bytesAt x.2 i = entries[i].bytes := by
  unfold ByteTags.bytesAt
  rw [h.bytes, getD_eq_getElem?_getD, getElem?_map, getElem?_eq_getElem hi]
  rfl

theorem Tracked.puts {s' : Packets} (hputs : Puts x.1 entries i bytes s') :
    ∃ entries', Tracked (s', x.2.set i bytes) entries' := by
  obtain ⟨m, e, rfl, rfl, hkept⟩ := hputs
  refine ⟨entries.set i e, ?_, ?_, ?_⟩
  · show x.1.packets.set i e.packet = _
    rw [h.packets, map_set]
  · rw [h.bytes, map_set]
  · exact hkept.perm ((set_perm_cons_eraseIdx hi e).symm.map Entry.live)

end

theorem Tracked.appends (h : Tracked x entries) {s' : Packets}
    (happends : Appends x.1 entries bytes s') :
    ∃ entries', Tracked (s', x.2 ++ [bytes]) entries' := by
  obtain ⟨m, e, rfl, rfl, hkept⟩ := happends
  refine ⟨entries ++ [e], ?_, ?_, ?_⟩
  · rw [map_append, ← h.packets]
    rfl
  · rw [map_append, ← h.bytes]
    rfl
  · exact hkept.perm ((perm_append_singleton e entries).symm.map Entry.live)

theorem Entry.lt (e : Entry) (hk : e.bytes[k]? = some tags) : k < e.packet.size :=
  e.size.symm ▸ (List.getElem?_eq_some_iff.mp hk).1

theorem getElem?_untagged : (untagged size)[k]? = some tags ↔ k < size ∧ tags = [] := by
  unfold untagged
  rw [getElem?_replicate]
  split
  · next hlt => exact ⟨fun h => ⟨hlt, (Option.some.inj h).symm⟩, fun h => congrArg some h.2.symm⟩
  · next hge => exact iff_of_false nofun fun h => hge h.1

theorem grow_ok (p : Packet) (size : Nat) :
    Returns (Packets.grow p size) fun newSize =>
      newSize = p.size + size ∧ (newSize : Int) ≤ offsetMax := by
  refine (returns_offset _).bind fun y hy => returnsUnless_ok ⟨rfl, ?_⟩
  exact hy.2.2

theorem create_ok (h : Tracked x entries) (size : Nat) :
    Returns (x.1.create size) (Appends x.1 entries (untagged size)) := by
  refine (returns_offset _).bind fun y _ => returnsUnless_ok ⟨x.1.memory,
    ⟨⟨size, initial⟩, [], untagged size, length_replicate.symm, fun k tags hk tag => ?_⟩,
    rfl, rfl, h.kept.initial⟩
  rw [(getElem?_untagged.mp hk).2]
  exact iff_of_false reports_nil not_mem_nil

theorem copy_ok (h : Tracked x entries) (hi : i < entries.length) :
    Returns (x.1.copy i) (Appends x.1 entries entries[i].bytes) := by
  obtain ⟨m, hok, hkept⟩ := share_mem h.kept (mem_map_of_mem (getElem_mem hi))
  unfold Packets.copy
  rw [h.get hi]
  dsimp only [bind, Except.bind]
  rw [hok]
  exact returnsUnless_ok ⟨m, entries[i], rfl, rfl, hkept⟩

theorem createFragment_ok (h : Tracked x entries) (hi : i < entries.length)
    (hfew : Few n (Lists.pointers (entries.map Entry.live))) (hn : n + 1 < 2 ^ 32)
    {start length : Nat} (hinside : start + length ≤ entries[i].bytes.length) :
    Returns (x.1.createFragment i start length)
      (Appends x.1 entries ((entries[i].bytes.drop start).take length)) := by
  obtain ⟨m₁, hok₁, hkept₁⟩ := share_mem h.kept (mem_map_of_mem (getElem_mem hi))
  unfold Packets.createFragment
  rw [h.get hi, except_ok_bind]
  refine (returns_offset _).bind fun y _ => ?_
  rw [hok₁, except_ok_bind]
  refine (adjust_ok _ _).bind fun byteTagList hadjusted => ?_
  subst hadjusted
  have hsize := entries[i].size
  have hkept := hkept₁.adjust (entries[i].packet.byteTagList.adjustment + -start)
  obtain ⟨m₂, hok₂, hkept₂⟩ := share_ok hkept
  obtain ⟨m₃, hok₃, hkept₃⟩ := deallocate_ok hkept₂ (hfew.cons _) hn
  rw [if_neg (not_lt.mpr (hsize ▸ hinside))]
  dsimp only [bind, Except.bind]
  rw [hok₂]
  dsimp only
  rw [hok₃]
  refine returnsUnless_ok ⟨m₃, ⟨_, entries[i].items, (entries[i].bytes.drop start).take length, ?_,
    fun k tags hk tag => ?_⟩, rfl, rfl, hkept₃⟩
  · show entries[i].packet.size - start - (entries[i].packet.size - (start + length)) = _
    rw [length_take, length_drop]
    omega
  · rw [getElem?_take, getElem?_drop] at hk
    split at hk
    · rw [← entries[i].reports _ tags hk tag]
      dsimp only
      rw [Int.natCast_add]
      congr! 1
      omega
    · cases hk

section

variable (h : Tracked x entries) (hi : i < entries.length)
include h hi

theorem tagged_ok (hfew : Few n (Lists.pointers (entries.map Entry.live))) (hpos : 1 ≤ n)
    (hn : n < 2 ^ 32) (tag : Tag) (start stop : Nat) :
    Returns (do
        let r ← x.1.memory.add entries[i].packet.byteTagList tag start stop
        return x.1.put r.1 i { entries[i].packet with byteTagList := r.2 })
      (Puts x.1 entries i (tagged entries[i].bytes tag start stop)) := by
  refine (add_ok (h.focus hi) (hfew.perm ((perm_focus hi).map _)) hpos hn tag start stop).bind
    fun r hr => ?_
  obtain ⟨hkept, -, hadjustment⟩ := hr
  refine returnsUnless_ok ⟨r.1, ⟨{ entries[i].packet with byteTagList := r.2 }, _,
    tagged entries[i].bytes tag start stop, ?_, fun k tags hk tag' => ?_⟩, rfl, rfl, hkept⟩
  · unfold tagged
    rw [length_mapIdx]
    exact entries[i].size
  · unfold tagged at hk
    rw [getElem?_mapIdx] at hk
    obtain ⟨old, hold, rfl⟩ := Option.map_eq_some_iff.mp hk
    have hadded : Reports [Item.stored entries[i].packet.byteTagList.adjustment ⟨tag, start, stop⟩]
        tag' (k - entries[i].packet.byteTagList.adjustment) ↔
        tag = tag' ∧ start ≤ k ∧ k < stop := by
      rw [← map_singleton, reports_stored, reports_cons, or_iff_left reports_nil]
      dsimp only
      rw [Int.ofNat_le, Int.ofNat_lt]
    dsimp only
    rw [reports_append, hadjustment, hadded, entries[i].reports k old hold]
    split
    · next hrange => rw [and_iff_left hrange, mem_cons, or_comm, eq_comm]
    · next hrange => exact or_iff_left fun hadded => hrange hadded.2

theorem addHeader_ok (hfew : Few n (Lists.pointers (entries.map Entry.live))) (hpos : 1 ≤ n)
    (hn : n < 2 ^ 32) (size : Nat) :
    Returns (x.1.addHeader i size) (Puts x.1 entries i (untagged size ++ entries[i].bytes)) := by
  unfold Packets.addHeader
  rw [h.get hi, except_ok_bind]
  refine (grow_ok _ _).bind fun newSize hgrown => (adjust_ok _ _).bind fun byteTagList hadjusted => ?_
  obtain ⟨hnew, hmax⟩ := hgrown
  subst hadjusted
  have hkept := (h.focus hi).adjust (entries[i].packet.byteTagList.adjustment + size)
  have hfocus := hfew.perm ((perm_focus hi).map _)
  refine (addAtStart_ok hkept hfocus hpos hn (Int.natCast_nonneg size)).bind fun r hr => ?_
  obtain ⟨items', hkept', -, hreports⟩ := hr
  refine returnsUnless_ok ⟨r.1, ⟨⟨newSize, r.2⟩, items', untagged size ++ entries[i].bytes, ?_,
    fun k tags hk tag => ?_⟩, rfl, rfl, hkept'⟩
  · unfold untagged
    rw [length_append, length_replicate, ← entries[i].size, Nat.add_comm]
    exact hnew
  · have hlen : (untagged size).length = size := length_replicate
    dsimp only
    rw [getElem?_append, hlen] at hk
    split at hk
    · next hlt =>
      have hbelow : (k : Int) < offsetMax := by omega
      rw [hreports tag k hbelow, (getElem?_untagged.mp hk).2]
      refine iff_of_false (fun hcut => ?_) not_mem_nil
      exact absurd hcut.2 (Int.not_le.mpr (Int.ofNat_lt.mpr hlt))
    · next hge =>
      have hle := Nat.le_of_not_lt hge
      have hlt := entries[i].lt hk
      have hbelow : (k : Int) < offsetMax := by omega
      rw [hreports tag k hbelow, ← entries[i].reports _ tags hk tag, Int.ofNat_sub hle]
      refine (and_iff_left (Int.ofNat_le.mpr hle)).trans ?_
      dsimp only
      rw [Int.sub_sub, Int.add_comm]

theorem removeAtStart_ok (size : Nat) :
    Returns (x.1.removeAtStart i size) (Puts x.1 entries i (entries[i].bytes.drop size)) := by
  unfold Packets.removeAtStart
  rw [h.get hi, except_ok_bind]
  refine (returns_offset _).bind fun y _ => (adjust_ok _ _).bind fun byteTagList hadjusted => ?_
  subst hadjusted
  have hkept := (h.focus hi).adjust (entries[i].packet.byteTagList.adjustment + -size)
  refine returnsUnless_ok ⟨x.1.memory, ⟨⟨entries[i].packet.size - size, _⟩, entries[i].items,
    entries[i].bytes.drop size, ?_, fun k tags hk tag => ?_⟩, rfl, rfl, hkept⟩
  · rw [length_drop]
    exact congrArg (· - size) entries[i].size
  · rw [getElem?_drop] at hk
    rw [← entries[i].reports _ tags hk tag]
    dsimp only
    rw [Int.natCast_add]
    congr! 1
    omega

theorem addPaddingAtEnd_ok (hfew : Few n (Lists.pointers (entries.map Entry.live))) (hpos : 1 ≤ n)
    (hn : n < 2 ^ 32) (size : Nat) :
    Returns (x.1.addPaddingAtEnd i size)
      (Puts x.1 entries i (entries[i].bytes ++ untagged size)) := by
  unfold Packets.addPaddingAtEnd
  rw [h.get hi, except_ok_bind]
  refine (returns_offset _).bind fun appendOffset happend => ?_
  obtain ⟨rfl, -, hmax⟩ := happend
  have hfocus := hfew.perm ((perm_focus hi).map _)
  refine (addAtEnd_ok (h.focus hi) hfocus hpos hn hmax).bind fun r hr => ?_
  obtain ⟨items', hkept, -, hreports⟩ := hr
  refine (grow_ok _ _).bind fun newSize hgrown => ?_
  refine returnsUnless_ok ⟨r.1, ⟨⟨newSize, r.2⟩, items', entries[i].bytes ++ untagged size, ?_,
    fun k tags hk tag => ?_⟩, rfl, rfl, hkept⟩
  · unfold untagged
    rw [length_append, length_replicate, ← entries[i].size]
    exact hgrown.1
  · dsimp only
    rw [hreports tag k (Int.natCast_nonneg k)]
    rw [getElem?_append] at hk
    split at hk
    · rw [← entries[i].reports k tags hk tag]
      exact and_iff_left (Int.ofNat_lt.mpr (entries[i].lt hk))
    · next hge =>
      rw [(getElem?_untagged.mp hk).2]
      refine iff_of_false (fun hcut => hge ?_) not_mem_nil
      rw [← entries[i].size]
      exact Int.ofNat_lt.mp hcut.2

theorem removeAtEnd_ok (size : Nat) : Returns (x.1.removeAtEnd i size)
      (Puts x.1 entries i (entries[i].bytes.take (entries[i].bytes.length - size))) := by
  unfold Packets.removeAtEnd
  rw [h.get hi, except_ok_bind]
  refine returnsUnless_ok ⟨x.1.memory, ⟨{ entries[i].packet with
      size := entries[i].packet.size - size }, entries[i].items,
    entries[i].bytes.take (entries[i].bytes.length - size), ?_, fun k tags hk tag => ?_⟩, rfl, rfl,
    h.focus hi⟩
  · rw [length_take, min_eq_left (Nat.sub_le _ _)]
    exact congrArg (· - size) entries[i].size
  · rw [getElem?_take] at hk
    split at hk
    · exact entries[i].reports k tags hk tag
    · cases hk

theorem removeAllByteTags_ok (hfew : Few n (Lists.pointers (entries.map Entry.live)))
    (hn : n < 2 ^ 32) :
    Returns (x.1.removeAllByteTags i)
      (Puts x.1 entries i (untagged entries[i].bytes.length)) := by
  obtain ⟨m, hok, hkept⟩ := removeAll_ok (h.focus hi) (hfew.perm ((perm_focus hi).map _)).tail hn
  unfold Packets.removeAllByteTags
  rw [h.get hi, except_ok_bind]
  dsimp only
  have hok : removeAll x.1.memory entries[i].packet.byteTagList = .ok (m, initial) := hok
  rw [hok]
  refine returnsUnless_ok ⟨m, ⟨{ entries[i].packet with byteTagList := initial }, [],
    untagged entries[i].bytes.length, ?_, fun k tags hk tag => ?_⟩, rfl, rfl, hkept⟩
  · exact entries[i].size.trans length_replicate.symm
  · rw [(getElem?_untagged.mp hk).2]
    exact iff_of_false reports_nil not_mem_nil

/-- The list of a packet after the bytes that it can get are cut off. -/
theorem Tracked.cut {m : Memory} {byteTagList : ByteTagList} {items : List Item}
    (hkept : Kept m ((byteTagList, items) :: (entries.eraseIdx i).map Entry.live))
    (hreports : ∀ tag k, 0 ≤ k → (Reports items tag (k - byteTagList.adjustment) ↔
      Reports entries[i].items tag (k - entries[i].packet.byteTagList.adjustment) ∧
        k < entries[i].packet.size)) :
    ∃ e : Entry, e.packet = ⟨entries[i].packet.size, byteTagList⟩ ∧
      e.items = items ∧ e.bytes = entries[i].bytes ∧
      Tracked (x.1.put m i e.packet, x.2) (entries.set i e) := by
  let e : Entry := ⟨⟨entries[i].packet.size, byteTagList⟩, items,
    entries[i].bytes, entries[i].size, fun k tags hk tag => by
      dsimp only
      rw [hreports tag k (Int.natCast_nonneg k), entries[i].reports k tags hk tag]
      exact and_iff_left (Int.ofNat_lt.mpr (entries[i].lt hk))⟩
  refine ⟨e, rfl, rfl, rfl, ?_, ?_, ?_⟩
  · show x.1.packets.set i e.packet = _
    rw [h.packets, map_set]
  · rw [h.bytes, map_set]
    exact (set_getElem_self (by rw [length_map]; exact hi)).symm.trans (by
      rw [getElem_map])
  · exact hkept.perm ((set_perm_cons_eraseIdx hi e).symm.map Entry.live)

theorem addPacketAtEnd_ok {j : Nat} (hj : j < entries.length)
    (hfew : Few n (Lists.pointers (entries.map Entry.live))) (hpos : 1 ≤ n) (hn : n + 1 < 2 ^ 32) :
    Returns (x.1.addPacketAtEnd i j)
      (Puts x.1 entries i (entries[i].bytes ++ entries[j].bytes)) := by
  unfold Packets.addPacketAtEnd
  rw [h.get hi, except_ok_bind]
  refine (returns_offset _).bind fun size hsize => ?_
  obtain ⟨rfl, -, hmax⟩ := hsize
  have hfocus := hfew.perm ((perm_focus hi).map _)
  refine (addAtEnd_ok (h.focus hi) hfocus hpos (Nat.lt_of_succ_lt hn) hmax).bind fun r hr => ?_
  obtain ⟨m₁, l₁⟩ := r
  obtain ⟨items₁, hkept, hfewCut, hreports⟩ := hr
  obtain ⟨e, hpkt, hitems, hbytes, hcut⟩ := h.cut hi hkept hreports
  have hlive : e.live = (l₁, items₁) := by
    unfold Entry.live
    rw [hpkt, hitems]
  have hrest : ((entries.set i e).map Entry.live).Perm
      ((l₁, items₁) :: (entries.eraseIdx i).map Entry.live) :=
    hlive ▸ (set_perm_cons_eraseIdx hi e).map Entry.live
  have hj' : j < (entries.set i e).length := by
    rw [length_set]
    exact hj
  have hother : (entries.set i e)[j].bytes = entries[j].bytes := by
    rw [getElem_set]
    split
    · next heq =>
      subst heq
      exact hbytes
    · rfl
  generalize hq : (entries.set i e)[j] = q at hother
  have hmem : q ∈ entries.set i e := hq ▸ getElem_mem hj'
  have hget : (x.1.put m₁ i ⟨entries[i].packet.size, l₁⟩).get j = .ok q.packet := by
    rw [← hpkt, ← hq]
    exact hcut.get hj'
  obtain ⟨m₂, hok₂, hkept₂⟩ := share_mem hcut.kept (mem_map_of_mem hmem)
  have hok₂ : m₁.share q.packet.byteTagList.data = .ok m₂ := hok₂
  dsimp only
  rw [hget, except_ok_bind, hok₂, except_ok_bind]
  -- The copy of the other list is cut at 0 and moved behind the bytes of the packet.
  have hfewAll : Few n (Lists.pointers ((l₁, items₁) :: (entries.eraseIdx i).map Entry.live)) :=
    hfewCut
  have hfew₂ := (hfewAll.perm (perm_pointers hrest.symm)).cons q.packet.byteTagList.data
  refine (addAtStart_ok hkept₂ hfew₂ (Nat.le_add_left 1 n) hn (Int.le_refl 0)).bind fun c hc => ?_
  obtain ⟨m₃, copy⟩ := c
  obtain ⟨itemsC, hkeptC, hfewC, hreportsC⟩ := hc
  refine (adjust_ok _ _).bind fun moved hadjusted => ?_
  subst hadjusted
  have hkept₃ := (hkeptC.perm (hrest.cons _)).adjust
    (copy.adjustment + (entries[i].packet.size : Int))
  have hfew₃ := (hfewC.perm ((perm_pointers hrest).cons _)).perm (.swap ..)
  refine (addList_ok (hkept₃.perm (.swap ..)) hfew₃ (Nat.le_add_left 1 n) hn).bind fun a ha => ?_
  obtain ⟨m₄, l₄⟩ := a
  obtain ⟨both, hkept₄, hfew₄, hreportsBoth⟩ := ha
  refine (grow_ok _ _).bind fun newSize hgrown => ?_
  obtain ⟨hnew, hbound⟩ := hgrown
  obtain ⟨m₅, hok₅, hkept₅⟩ :=
    deallocate_ok (hkept₄.perm (.swap ..)) (hfew₄.perm (.swap ..)).tail hn
  dsimp only at hok₅ ⊢
  rw [hok₅]
  refine returnsUnless_ok ⟨m₅, ⟨⟨newSize, l₄⟩, both, entries[i].bytes ++ entries[j].bytes, ?_,
    fun k tags hk tag => ?_⟩, rfl, rfl, hkept₅⟩
  · rw [length_append, ← entries[i].size, ← hother, ← q.size]
    exact hnew
  · have hlt : (k : Int) < newSize := by
      have hk := (List.getElem?_eq_some_iff.mp hk).1
      rw [length_append, ← entries[i].size, ← hother, ← q.size] at hk
      rw [hnew]
      exact Int.ofNat_lt.mpr hk
    have hbelow := Int.lt_of_lt_of_le hlt hbound
    have hshift : (k : Int) - (copy.adjustment + entries[i].packet.size) =
        k - entries[i].packet.size - copy.adjustment := by omega
    dsimp only at hreports hreportsC hreportsBoth ⊢
    rw [hreportsBoth tag k (Int.natCast_nonneg k) hbelow, hreports tag k (Int.natCast_nonneg k),
      hshift, hreportsC tag _ (by omega)]
    rw [getElem?_append, ← entries[i].size] at hk
    split at hk
    · next hfirst =>
      rw [← entries[i].reports k tags hk tag, and_iff_left (Int.ofNat_lt.mpr hfirst)]
      refine or_iff_left fun hsecond => ?_
      have hle := hsecond.2
      omega
    · next hsecond =>
      have hle := Nat.le_of_not_lt hsecond
      rw [← hother] at hk
      rw [← q.reports _ tags hk tag, Int.ofNat_sub hle, or_iff_right fun hfirst => ?_]
      · exact and_iff_left (Int.sub_nonneg_of_le (Int.ofNat_le.mpr hle))
      · exact absurd (Int.ofNat_lt.mp hfirst.2) hsecond

end

/-! ## 6. Runs -/

theorem Tracked.few (h : Tracked x entries) (hroom : Roomy x.1) :
    Few (2 ^ 32 - 2) (Lists.pointers (entries.map Entry.live)) := by
  intro a
  have hsharers : (Lists.pointers (entries.map Entry.live)).count (some a) = x.1.sharers a := by
    unfold Lists.pointers Packets.sharers
    rw [h.packets, map_map, map_map]
    rfl
  cases Nat.lt_or_ge a x.1.memory.heap.length with
  | inl hlt =>
    have hbound := hroom a hlt
    omega
  | inr hge =>
    have hnone : (Lists.pointers (entries.map Entry.live)).count (some a) = 0 :=
      count_eq_zero.mpr fun hmem => absurd (h.kept.counted.lt hmem) (Nat.not_lt.mpr hge)
    exact hnone ▸ Nat.zero_le _

theorem Tracked.perform (h : Tracked x entries) {action : Action} (hproper : Proper x.2 action)
    (hroom : Roomy x.1) : Returns (perform x.1 action) fun s =>
      ∃ entries', Tracked (s, onBytes x.2 action) entries' := by
  have hfew := h.few hroom
  have hpos : 1 ≤ 2 ^ 32 - 2 := by decide
  have hnext : 2 ^ 32 - 2 + 1 < 2 ^ 32 := by decide
  have hn : 2 ^ 32 - 2 < 2 ^ 32 := by decide
  have hlen : x.2.length = entries.length := by
    rw [h.bytes, length_map]
  have hputs {i : Nat} {bytes : Bytes} {result : Except Failure Packets} (hi : i < entries.length)
      (hresult : Returns result (Puts x.1 entries i bytes)) : Returns result fun s =>
      ∃ entries', Tracked (s, x.2.set i bytes) entries' := hresult.mono fun s hs => h.puts hi hs
  have happends {bytes : Bytes} {result : Except Failure Packets}
      (hresult : Returns result (Appends x.1 entries bytes)) : Returns result fun s =>
      ∃ entries', Tracked (s, x.2 ++ [bytes]) entries' := hresult.mono fun s hs => h.appends hs
  cases action with
  | create size => exact happends (create_ok h size)
  | copy i =>
    have hi : i < entries.length := hlen ▸ hproper
    refine happends ?_
    rw [h.bytesAt hi]
    exact copy_ok h hi
  | createFragment i start length =>
    have hi : i < entries.length := hlen ▸ hproper.1
    have hinside := hproper.2
    rw [h.bytesAt hi] at hinside
    refine happends ?_
    rw [h.bytesAt hi]
    exact createFragment_ok h hi hfew hnext hinside
  | addByteTag i tag =>
    have hi : i < entries.length := hlen ▸ hproper
    refine hputs hi ?_
    rw [h.bytesAt hi, ← entries[i].size]
    unfold ByteTags.perform Packets.addByteTag
    dsimp only
    rw [h.get hi, except_ok_bind]
    refine (returns_offset _).bind fun size hsize => ?_
    obtain ⟨rfl, -⟩ := hsize
    exact tagged_ok h hi hfew hpos hn tag 0 _
  | addByteTagRange i tag start stop =>
    have hi : i < entries.length := hlen ▸ hproper.1
    refine hputs hi ?_
    rw [h.bytesAt hi]
    unfold ByteTags.perform Packets.addByteTagRange
    dsimp only
    rw [h.get hi, except_ok_bind, if_neg (not_lt.mpr hproper.2)]
    refine (returns_offset _).bind fun start' hstart => (returns_offset _).bind fun stop' hstop => ?_
    obtain ⟨rfl, -⟩ := hstart
    obtain ⟨rfl, -⟩ := hstop
    exact tagged_ok h hi hfew hpos hn tag start stop
  | addHeader i size =>
    have hi : i < entries.length := hlen ▸ hproper
    refine hputs hi ?_
    rw [h.bytesAt hi]
    exact addHeader_ok h hi hfew hpos hn size
  | removeHeader i size | removeAtStart i size =>
    have hi : i < entries.length := hlen ▸ hproper
    refine hputs hi ?_
    rw [h.bytesAt hi]
    exact removeAtStart_ok h hi size
  | addTrailer i size | addPaddingAtEnd i size =>
    have hi : i < entries.length := hlen ▸ hproper
    refine hputs hi ?_
    rw [h.bytesAt hi]
    exact addPaddingAtEnd_ok h hi hfew hpos hn size
  | removeTrailer i size | removeAtEnd i size =>
    have hi : i < entries.length := hlen ▸ hproper
    refine hputs hi ?_
    rw [h.bytesAt hi]
    exact removeAtEnd_ok h hi size
  | addAtEnd i j =>
    have hi : i < entries.length := hlen ▸ hproper.1
    have hj : j < entries.length := hlen ▸ hproper.2
    refine hputs hi ?_
    rw [h.bytesAt hi, h.bytesAt hj]
    exact addPacketAtEnd_ok h hi hj hfew hpos hnext
  | removeAllByteTags i =>
    have hi : i < entries.length := hlen ▸ hproper
    refine hputs hi ?_
    rw [h.bytesAt hi]
    exact removeAllByteTags_ok h hi hfew hn

theorem Tracked.tagsOfBytes (h : Tracked x entries) : TagsOfBytes x where
  sizes := by
    rw [h.packets, h.bytes, map_map, map_map]
    exact map_congr_left fun e _ => e.size
  tags := by
    intro i p bytes hp hbytes
    rw [h.packets, getElem?_map] at hp
    rw [h.bytes, getElem?_map] at hbytes
    obtain ⟨e, he, rfl⟩ := Option.map_eq_some_iff.mp hp
    rw [he] at hbytes
    cases hbytes
    unfold getByteTagIterator
    refine (returns_offset _).bind fun size hsize => ?_
    obtain ⟨rfl, -⟩ := hsize
    refine (beginIn_ok h.kept (mem_map_of_mem (mem_of_getElem? he)) 0 _).mono
      fun seen hseen tag k => ?_
    rw [hseen]
    constructor
    · rintro ⟨hreports, -, hlt⟩
      have hk : k < e.bytes.length := e.size ▸ Int.ofNat_lt.mp hlt
      have htags := getElem?_eq_getElem hk
      exact ⟨_, htags, (e.reports k _ htags tag).mp hreports⟩
    · rintro ⟨tags, htags, htag⟩
      exact ⟨(e.reports k tags htags tag).mpr htag, Int.natCast_nonneg k,
        Int.ofNat_lt.mpr (e.lt htags)⟩
  proceeds := by
    intro action hproper hroom
    rcases h.perform hproper hroom with hoverflow | ⟨s, hok, -⟩
    · exact .inl hoverflow
    · exact .inr ⟨s, hok⟩

theorem tracked_start : Tracked start [] :=
  ⟨rfl, rfl, ⟨⟨nofun, fun a ha => by cases ha⟩, forall_mem_nil _, nofun⟩⟩

/-- In every run of proper actions, as long as the counts have room. -/
theorem tags_of_run {actions : List Action}
    (hrun : FallibleRun step (fun x action => Proper x.2 action ∧ Roomy x.1) start actions x) :
    TagsOfBytes x := by
  have htracked : ∃ entries, Tracked x entries := by
    refine hrun.invariant (fun x => ∃ entries, Tracked x entries) ?_ ⟨[], tracked_start⟩
    rintro x action x' ⟨entries, h⟩ ⟨hproper, hroom⟩ hstep
    obtain ⟨s, hs, rfl⟩ := except_map_eq_ok.mp hstep
    exact (h.perform hproper hroom).of_ok hs
  obtain ⟨entries, h⟩ := htracked
  exact h.tagsOfBytes

end Entries

/-- A tag without data. -/
def bareTag (tid : BitVec 32) : Tag := ⟨tid, []⟩

/-- The header is removed and another one added, and the copy keeps the tag of the first one. -/
def tagAndCopy : List Action :=
  [.create 3, .addByteTag 0 (bareTag 1), .copy 0, .removeHeader 0 2, .addHeader 0 1,
    .addByteTagRange 0 (bareTag 2) 1 2, .addAtEnd 1 0]

/-- The packets after that, and their bytes. -/
def taggedAndCopied : Packets × List Bytes :=
  (⟨⟨[none, none, some ⟨1, 32, 32, [⟨bareTag 1, 1, 2⟩, ⟨bareTag 2, 1, 2⟩]⟩, none,
        some ⟨1, 48, 48, [⟨bareTag 1, 0, 3⟩, ⟨bareTag 1, 4, 5⟩, ⟨bareTag 2, 4, 5⟩]⟩], [32], 32⟩,
      [⟨2, ⟨1, 2, 0, 32, some 2⟩⟩, ⟨5, ⟨0, 5, 0, 48, some 4⟩⟩]⟩,
    [[[], [bareTag 2, bareTag 1]],
      [[bareTag 1], [bareTag 1], [bareTag 1], [], [bareTag 2, bareTag 1]]])

theorem tags_of_run_copy : TagsOfBytes taggedAndCopied :=
  @tags_of_run _ tagAndCopy <|
    .cons (by decide) rfl <| .cons (by decide) rfl <| .cons (by decide) rfl <|
    .cons (by decide) rfl <| .cons (by decide) rfl <| .cons (by decide) rfl <|
    .cons (by decide) rfl (.nil _)

/-! ## 7. The count overflows -/

/-- `n + 1` lists that share a buffer with room for one more item, and a packet without tags. -/
def shared (n : Nat) : Packets × List Bytes :=
  (⟨⟨[none, some ⟨BitVec.ofNat 32 (n + 1), 32, 16, [⟨bareTag 1, 0, 1⟩]⟩], [], 32⟩,
      [⟨1, ⟨0, 1, 0, 16, some 1⟩⟩, ⟨1, initial⟩] ++ List.replicate n ⟨1, ⟨0, 1, 0, 16, some 1⟩⟩⟩,
    [[[bareTag 1]], [[]]] ++ List.replicate n [[bareTag 1]])

theorem shared_run (n : Nat) : ∃ actions,
    FallibleRun step (fun x action => Proper x.2 action) start actions (shared n) := by
  induction n with
  | zero =>
    exact ⟨[.create 1, .create 1, .addByteTag 1 ⟨0, List.replicate 16 0⟩, .removeAllByteTags 1,
      .addByteTag 0 (bareTag 1)], .cons trivial rfl (.cons trivial rfl (.cons (by decide) rfl
        (.cons (by decide) rfl (.cons (by decide) rfl (.nil _)))))⟩
  | succ n ih =>
    obtain ⟨actions, hrun⟩ := ih
    have hcount : BitVec.ofNat 32 (n + 1) + 1 = BitVec.ofNat 32 (n + 1 + 1) :=
      (BitVec.ofNat_add ..).symm
    have hcopy : step (shared n) (.copy 0) =
        .ok (⟨⟨[none, some ⟨BitVec.ofNat 32 (n + 1) + 1, 32, 16, [⟨bareTag 1, 0, 1⟩]⟩], [], 32⟩,
            ([⟨1, ⟨0, 1, 0, 16, some 1⟩⟩, ⟨1, initial⟩] ++
              List.replicate n ⟨1, ⟨0, 1, 0, 16, some 1⟩⟩) ++ [⟨1, ⟨0, 1, 0, 16, some 1⟩⟩]⟩,
          ([[[bareTag 1]], [[]]] ++ List.replicate n [[bareTag 1]]) ++ [[[bareTag 1]]]) := rfl
    have hstep : step (shared n) (.copy 0) = .ok (shared (n + 1)) := by
      rw [hcopy, hcount, append_assoc, append_assoc, ← replicate_succ', ← replicate_succ']
      rfl
    have hproper : Proper (shared n).2 (.copy 0) := Nat.succ_pos _
    exact ⟨actions ++ [.copy 0], hrun.append (.cons hproper hstep (.nil _))⟩

/-- With `2 ^ 32 + 1` lists the count is 1, and a copy writes its tag over that of the first one. -/
theorem tag_overwritten_by_copy : ∃ actions x p,
    FallibleRun step (fun x action => Proper x.2 action) start actions x ∧
    x.1.packets[0]? = some p ∧ x.2[0]? = some [[bareTag 2, bareTag 1]] ∧
    getByteTagIterator x.1.memory p = .ok [⟨bareTag 1, 0, 1⟩, ⟨bareTag 3, 0, 1⟩] := by
  obtain ⟨n, hn⟩ : ∃ n, n + 1 + 1 = 2 ^ 32 + 1 := ⟨2 ^ 32 - 1, rfl⟩
  obtain ⟨actions, hrun⟩ := shared_run (n + 1)
  have hcount : BitVec.ofNat 32 (n + 1 + 1) = 1 := by
    rw [hn]
    rfl
  have hshared : shared (n + 1) =
      (⟨⟨[none, some ⟨1, 32, 16, [⟨bareTag 1, 0, 1⟩]⟩], [], 32⟩,
          ⟨1, ⟨0, 1, 0, 16, some 1⟩⟩ :: ⟨1, initial⟩ :: ⟨1, ⟨0, 1, 0, 16, some 1⟩⟩ ::
            List.replicate n ⟨1, ⟨0, 1, 0, 16, some 1⟩⟩⟩,
        [[bareTag 1]] :: [[]] :: [[bareTag 1]] :: List.replicate n [[bareTag 1]]) := by
    unfold shared
    rw [hcount]
    rfl
  rw [hshared] at hrun
  have hfirst (m : Nat) : 0 < m + 1 := Nat.succ_pos m
  have hthird (m : Nat) : 2 < m + 1 + 1 + 1 := Nat.le_add_left 3 m
  exact ⟨actions ++ [.addByteTag 0 (bareTag 2), .addByteTag 2 (bareTag 3)],
    (⟨⟨[none, some ⟨1, 32, 32, [⟨bareTag 1, 0, 1⟩, ⟨bareTag 3, 0, 1⟩]⟩], [], 32⟩,
        ⟨1, ⟨0, 1, 0, 32, some 1⟩⟩ :: ⟨1, initial⟩ :: ⟨1, ⟨0, 1, 0, 32, some 1⟩⟩ ::
          List.replicate n ⟨1, ⟨0, 1, 0, 16, some 1⟩⟩⟩,
      [[bareTag 2, bareTag 1]] :: [[]] :: [[bareTag 3, bareTag 1]] ::
        List.replicate n [[bareTag 1]]),
    ⟨1, ⟨0, 1, 0, 32, some 1⟩⟩,
    hrun.append (.cons (hfirst _) rfl (.cons (hthird _) rfl (.nil _))), rfl, rfl, rfl⟩

end MoeJit.ByteTags
