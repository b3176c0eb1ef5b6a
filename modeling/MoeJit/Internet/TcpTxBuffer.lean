import MoeJit.Internet.SequenceNumber
import MoeJit.Lib.Bytes

/-!
# The send buffer

`TcpTxBuffer` holds the bytes that are not acknowledged yet: `sentList`, the segments that were
sent, with a scoreboard, and behind it `appList`, what the application added.

An assertion or an abort that fails, a null pointer and an iterator that designates no item
end the run with a `Failure`.
-/

namespace MoeJit.Tcp

open Bytes (Byte)

/-- The function whose check fails, or what is done that cannot be done. -/
inductive Failure
  | copyFromSequence
  | getTransmittedSegment
  | getPacketFromList
  | mergeItems
  | removeFromCounts
  | discardUpTo
  | update
  | setSentListLost
  | addRenoSack
  | setHeadSequence
  | bytesInFlight
  | nullItem
  | invalidIterator
  | endless
  deriving DecidableEq

/-! ## 1. Items -/

/-- A packet that the application adds. -/
structure Packet where
  bytes : List Byte
  bounded : bytes.length < 2 ^ 32

/-- `node` is the list node that holds the item, for the iterators that designate it. -/
structure TcpTxItem where
  node : Nat
  startSeq : SequenceNumber32
  packet : List Byte
  lost : Bool
  lastSent : Int
  sacked : Bool
  retrans : Bool
  deriving DecidableEq

def timeMax : Int := 2 ^ 63 - 1

/-- The size of the packet. -/
def TcpTxItem.size (item : TcpTxItem) : BitVec 32 := BitVec.ofNat 32 item.packet.length

/-- The first part is a new item before the other. -/
def splitItems (item : TcpTxItem) (node : Nat) (size : BitVec 32) : TcpTxItem × TcpTxItem :=
  ({ item with node := node, packet := item.packet.take size.toNat },
    { item with packet := item.packet.drop size.toNat, startSeq := item.startSeq + size })

/-- With the count of retransmitted bytes. -/
def mergeItems (t1 t2 : TcpTxItem) (retrans : BitVec 32) :
    Except Failure (TcpTxItem × BitVec 32) :=
  if t1.sacked ≠ t2.sacked then .error .mergeItems
  else if t1.lost ≠ t2.lost then .error .mergeItems
  else
    let lastSent := if t1.lastSent < t2.lastSent then t2.lastSent else t1.lastSent
    let packet := t1.packet ++ t2.packet
    if t1.retrans ≠ t2.retrans then
      if t1.retrans then
        .ok ({ t1 with retrans := false, lastSent := lastSent, packet := packet },
          retrans - t1.size)
      else .ok ({ t1 with lastSent := lastSent, packet := packet }, retrans - t2.size)
    else .ok ({ t1 with lastSent := lastSent, packet := packet }, retrans)

/-! ## 2. `GetPacketFromList` -/

/-- An item in its list, with the count of retransmitted bytes and the nodes used so far. -/
structure Found where
  before : List TcpTxItem
  item : TcpTxItem
  after : List TcpTxItem
  retrans : BitVec 32
  nodes : Nat

/-- The walk to the packet that `seq` is inside of: what it passed, where the packet begins, the
packet and what follows. -/
def locate (check : TcpTxItem → Bool) (seq : SequenceNumber32) :
    SequenceNumber32 → List TcpTxItem →
      Except Failure (List TcpTxItem × SequenceNumber32 × TcpTxItem × List TcpTxItem)
  | _, [] => .error .getPacketFromList
  | start, item :: rest =>
    if check item = false then .error .getPacketFromList
    else if seq.lt (start + item.size) then .ok ([], start, item, rest)
    else do
      let (before, start, current, after) ← locate check seq (start + item.size) rest
      return (item :: before, start, current, after)

/-- After an edit the list is walked again from its beginning. A packet that ends past a later one
does not occur: the packet that begins at `seq` is the current one. When `numBytes` is more than
the packet but does not reach past it, the loop goes round without moving. -/
def getPacketFromList (check : TcpTxItem → Bool) (listStartFrom : SequenceNumber32)
    (numBytes : BitVec 32) (seq : SequenceNumber32) :
    Nat → List TcpTxItem → BitVec 32 → Nat → Except Failure Found
  | 0, _, _, _ => .error .endless
  | fuel + 1, list, retrans, nodes => do
    let (before, start, current, after) ← locate check seq listStartFrom list
    if seq = start then
      if (seq + numBytes).le (start + current.size) then
        if numBytes = current.size then return ⟨before, current, after, retrans, nodes⟩
        else if numBytes < current.size then
          let parts := splitItems current nodes numBytes
          return ⟨before, parts.1, parts.2 :: after, retrans, nodes + 1⟩
        else throw .endless
      else
        match after with
        | [] => return ⟨before, current, [], retrans, nodes⟩
        | next :: after => do
          let (merged, retrans) ← mergeItems current next retrans
          getPacketFromList check listStartFrom numBytes seq fuel (before ++ merged :: after)
            retrans nodes
    else if seq.gt start then
      let parts := splitItems current nodes (seq - start)
      getPacketFromList check listStartFrom numBytes seq fuel
        (before ++ parts.1 :: parts.2 :: after) retrans (nodes + 1)
    else throw .getPacketFromList

/-! ## 3. The buffer -/

/-- `highestSack.1` is the node that the iterator designates, or `none` for the end of
`sentList`. -/
structure TcpTxBuffer where
  appList : List TcpTxItem
  sentList : List TcpTxItem
  maxBuffer : BitVec 32
  size : BitVec 32
  sentSize : BitVec 32
  firstByteSeq : SequenceNumber32
  highestSack : Option Nat × SequenceNumber32
  lostOut : BitVec 32
  sackedOut : BitVec 32
  retrans : BitVec 32
  dupAckThresh : BitVec 32
  segmentSize : BitVec 32
  sackEnabled : Bool
  nodes : Nat
  deriving DecidableEq

def noSack : Option Nat × SequenceNumber32 := (none, ⟨0⟩)

def minimum (a b : BitVec 32) : BitVec 32 := if b < a then b else a

/-- The sizes of the items with a flag. -/
def sizeOf (flag : TcpTxItem → Bool) (items : List TcpTxItem) : BitVec 32 :=
  (items.map fun item => if flag item then item.size else 0).sum

namespace TcpTxBuffer

/-- A new buffer whose head sequence is set. -/
def initial (n maxBuffer dupAckThresh segmentSize : BitVec 32) (sackEnabled : Bool) :
    TcpTxBuffer where
  appList := []
  sentList := []
  maxBuffer := maxBuffer
  size := 0
  sentSize := 0
  firstByteSeq := ⟨n⟩
  highestSack := noSack
  lostOut := 0
  sackedOut := 0
  retrans := 0
  dupAckThresh := dupAckThresh
  segmentSize := segmentSize
  sackEnabled := sackEnabled
  nodes := 0

def tailSequence (s : TcpTxBuffer) : SequenceNumber32 := s.firstByteSeq + s.size

def available (s : TcpTxBuffer) : BitVec 32 := s.maxBuffer - s.size

def setHeadSequence (s : TcpTxBuffer) (seq : SequenceNumber32) : Except Failure TcpTxBuffer :=
  if s.sentList ≠ [] then .error .setHeadSequence
  else .ok { s with firstByteSeq := seq, highestSack := noSack }

def add (s : TcpTxBuffer) (p : Packet) : TcpTxBuffer × Bool :=
  let pktSize := BitVec.ofNat 32 p.bytes.length
  if pktSize ≤ s.available then
    if 0 < pktSize then
      ({ s with
          appList := s.appList ++ [⟨0, ⟨0⟩, p.bytes, false, timeMax, false, false⟩]
          size := s.size + pktSize }, true)
    else (s, true)
  else (s, false)

def sizeFromSequence (s : TcpTxBuffer) (seq : SequenceNumber32) : BitVec 32 :=
  if s.tailSequence.ge seq then s.tailSequence - seq else 0

/-! ### Sending -/

/-- The buffer and the item, in `sentList`. -/
def getNewSegment (s : TcpTxBuffer) (numBytes : BitVec 32) :
    Except Failure (TcpTxBuffer × Found) := do
  let startOfAppList := s.firstByteSeq + s.sentSize
  let found ← getPacketFromList (fun _ => true) startOfAppList numBytes startOfAppList
    (s.appList.length + 2) s.appList s.retrans s.nodes
  let item := { found.item with startSeq := startOfAppList, node := found.nodes }
  return ({ s with
      appList := found.before ++ found.after
      sentList := s.sentList ++ [item]
      sentSize := s.sentSize + item.size
      retrans := found.retrans
      nodes := found.nodes + 1 },
    ⟨s.sentList, item, [], found.retrans, found.nodes + 1⟩)

/-- Segments with different flags are not merged. -/
def transmittedBytes (numBytes : BitVec 32) (seq : SequenceNumber32) :
    List TcpTxItem → BitVec 32
  | [] => numBytes
  | item :: rest =>
    if item.startSeq = seq then
      match rest with
      | next :: _ =>
        if next.sacked = false && item.lost = next.lost then
          minimum numBytes (item.size + next.size)
        else minimum numBytes item.size
      | [] => minimum numBytes item.size
    else transmittedBytes numBytes seq rest

def getTransmittedSegment (s : TcpTxBuffer) (numBytes : BitVec 32) (seq : SequenceNumber32) :
    Except Failure (TcpTxBuffer × Found) :=
  if seq.ge s.firstByteSeq && numBytes ≤ s.sentSize && !s.sentList.isEmpty then do
    let found ← getPacketFromList (fun item => item.startSeq.ge s.firstByteSeq) s.firstByteSeq
      (transmittedBytes numBytes seq s.sentList) seq (s.sentList.length + 2) s.sentList s.retrans
      s.nodes
    let retrans :=
      if found.item.retrans then found.retrans else found.retrans + found.item.size
    let found := { found with item := { found.item with retrans := true }, retrans := retrans }
    return ({ s with
        sentList := found.before ++ found.item :: found.after
        retrans := retrans
        nodes := found.nodes }, found)
  else .error .getTransmittedSegment

/-- The end of `CopyFromSequence`. -/
def returnItem (s : TcpTxBuffer) (found : Found) (now : Int) :
    Except Failure (TcpTxBuffer × Option TcpTxItem) :=
  let item := { found.item with lastSent := now }
  if item.startSeq.ge s.firstByteSeq then
    .ok ({ s with sentList := found.before ++ item :: found.after }, some item)
  else .error .copyFromSequence

/-- The calls of itself are counted down. -/
def copyFromSequenceIn (s : TcpTxBuffer) (seq : SequenceNumber32) (now : Int) :
    Nat → BitVec 32 → Except Failure (TcpTxBuffer × Option TcpTxItem)
  | 0, _ => .error .endless
  | calls + 1, numBytes =>
    if s.firstByteSeq.gt seq then .error .copyFromSequence
    else
      let bytes := minimum numBytes (s.sizeFromSequence seq)
      if bytes = 0 then .ok (s, none)
      else if (s.firstByteSeq + s.sentSize).ge (seq + bytes) then do
        let (s, found) ← s.getTransmittedSegment bytes seq
        if found.item.sacked then throw .copyFromSequence
        s.returnItem found now
      else if (s.firstByteSeq + s.sentSize).le seq then
        if s.firstByteSeq + s.sentSize ≠ seq then .error .copyFromSequence
        else do
          let (s, found) ← s.getNewSegment bytes
          if found.item.retrans then throw .copyFromSequence
          s.returnItem found now
      else if seq.value < s.firstByteSeq.value + s.sentSize ∧
          s.firstByteSeq.value + s.sentSize < seq.value + bytes then
        -- the values are compared as they are, not as sequence numbers
        copyFromSequenceIn s seq now calls (s.firstByteSeq.value + s.sentSize - seq.value)
      else .error .nullItem

def copyFromSequence (s : TcpTxBuffer) (numBytes : BitVec 32) (seq : SequenceNumber32)
    (now : Int) : Except Failure (TcpTxBuffer × Option TcpTxItem) :=
  s.copyFromSequenceIn seq now 2 numBytes

/-! ### The scoreboard -/

/-- The pair that the source returns: an iterator and where its item begins. -/
def findHighestSackedFrom : SequenceNumber32 → List TcpTxItem →
    Option Nat × SequenceNumber32 → Option Nat × SequenceNumber32
  | _, [], ret => ret
  | start, item :: rest, ret =>
    findHighestSackedFrom (start + item.size) rest
      (if item.sacked then (some item.node, start) else ret)

def findHighestSacked (s : TcpTxBuffer) : Option Nat × SequenceNumber32 :=
  findHighestSackedFrom s.firstByteSeq s.sentList noSack

def removeFromCounts (s : TcpTxBuffer) (item : TcpTxItem) (size : BitVec 32) :
    Except Failure TcpTxBuffer :=
  if (item.sacked && s.sackedOut < size) || (item.retrans && s.retrans < size) ||
      (item.lost && s.lostOut < size) then .error .removeFromCounts
  else .ok { s with
    sackedOut := if item.sacked then s.sackedOut - size else s.sackedOut
    retrans := if item.retrans then s.retrans - size else s.retrans
    lostOut := if item.lost then s.lostOut - size else s.lostOut }

/-- Marks the first segment behind the head that is not sacked. -/
def addRenoSack (s : TcpTxBuffer) : Except Failure TcpTxBuffer :=
  match s.sentList with
  | [] => .error .addRenoSack
  | head :: rest =>
    if s.sackEnabled && rest.isEmpty then .error .addRenoSack
    else
      match rest.dropWhile (·.sacked) with
      | [] => .ok s
      | item :: others => .ok { s with
          sentList := head :: (rest.takeWhile (·.sacked) ++ { item with sacked := true } :: others)
          sackedOut := s.sackedOut + item.size
          highestSack := (some item.node, item.startSeq) }

def markHeadAsLost (s : TcpTxBuffer) : TcpTxBuffer :=
  match s.sentList with
  | [] => s
  | head :: rest => { s with
      sentList := { head with sacked := false, retrans := false, lost := true } :: rest
      sackedOut := if head.sacked then s.sackedOut - head.size else s.sackedOut
      retrans := if head.retrans then s.retrans - head.size else s.retrans
      lostOut := if head.lost then s.lostOut else s.lostOut + head.size }

def resetRenoSack (s : TcpTxBuffer) : TcpTxBuffer :=
  { s with
    sackedOut := 0
    sentList := s.sentList.map fun item => { item with sacked := false }
    highestSack := noSack }

def resetSentList (s : TcpTxBuffer) : TcpTxBuffer :=
  { s with
    appList := (s.sentList.map fun item =>
      { item with retrans := false, sacked := false, lost := false }) ++ s.appList
    sentList := []
    sentSize := 0
    lostOut := 0
    retrans := 0
    sackedOut := 0
    highestSack := noSack }

/-- The item goes back as it is. -/
def resetLastSegmentSent (s : TcpTxBuffer) : TcpTxBuffer :=
  match s.sentList.getLast? with
  | none => s
  | some item => { s with
      sentList := s.sentList.dropLast
      sentSize := s.sentSize - item.size
      retrans := if item.retrans then s.retrans - item.size else s.retrans
      appList := item :: s.appList }

/-- What `SetSentListLost` does before it checks the counts. -/
def loseSentList (s : TcpTxBuffer) : Bool → TcpTxBuffer
  | true => { s with
      retrans := 0
      sackedOut := 0
      lostOut := s.sentSize
      highestSack := noSack
      sentList := s.sentList.map fun item =>
        { item with sacked := false, lost := true, retrans := false } }
  | false => { s with
      retrans := 0
      lostOut := sizeOf (fun item => item.lost || !item.sacked) s.sentList
      sentList := s.sentList.map fun item =>
        { item with lost := item.lost || !item.sacked, retrans := false } }

def setSentListLost (s : TcpTxBuffer) (resetSack : Bool) : Except Failure TcpTxBuffer :=
  let s := s.loseSentList resetSack
  if s.sentSize < s.sackedOut + s.lostOut then .error .setSentListLost else .ok s

def isHeadRetransmitted (s : TcpTxBuffer) : Bool :=
  if s.sentSize = 0 then false else (s.sentList.head?.map (·.retrans)).getD false

def deleteRetransmittedFlagFromHead (s : TcpTxBuffer) : TcpTxBuffer :=
  if s.sentSize = 0 then s
  else
    match s.sentList with
    | [] => s
    | head :: rest =>
      if head.retrans then { s with
        sentList := { head with retrans := false } :: rest
        retrans := s.retrans - head.size }
      else s

/-! ### Acknowledgements -/

/-- Data is moved from the application's list when nothing is sent, so that it can be deleted. -/
def moveToSentList (s : TcpTxBuffer) (offset : BitVec 32) (now : Int) :
    Except Failure TcpTxBuffer :=
  match s.sentList with
  | [] => do
    let (s, item) ← s.copyFromSequence offset s.firstByteSeq now
    if item.isNone then throw .nullItem else return s
  | _ :: _ => .ok s

/-- The loop of `DiscardUpTo`, whose rounds are counted down. -/
def discard (now : Int) : Nat → BitVec 32 → TcpTxBuffer → Except Failure TcpTxBuffer
  | 0, _, _ => .error .endless
  | rounds + 1, offset, s =>
    if s.size = 0 ∨ offset = 0 then .ok s
    else do
      let s ← s.moveToSentList offset now
      match s.sentList with
      | [] => .error .discardUpTo
      | item :: rest =>
        if item.startSeq ≠ s.firstByteSeq then .error .discardUpTo
        else if item.size ≤ offset then do
          let s ← removeFromCounts { s with
            size := s.size - item.size
            sentSize := s.sentSize - item.size
            firstByteSeq := s.firstByteSeq + item.size
            sentList := rest } item item.size
          discard now rounds (offset - item.size) s
        else
          removeFromCounts { s with
            sentList := { item with
              packet := item.packet.drop offset.toNat
              startSeq := item.startSeq + offset } :: rest
            size := s.size - offset
            sentSize := s.sentSize - offset
            firstByteSeq := s.firstByteSeq + offset } item offset

/-- A head that is sacked was guessed; another segment is marked in its place. -/
def settleHead (s : TcpTxBuffer) : Except Failure TcpTxBuffer :=
  match s.sentList with
  | [] => .ok s
  | head :: rest =>
    if head.sacked then
      if head.lost then .error .discardUpTo
      else do
        let s ← addRenoSack { s with
          sentList := { head with sacked := false } :: rest
          sackedOut := s.sackedOut - head.size }
        return s.markHeadAsLost
    else .ok s

def discardUpTo (s : TcpTxBuffer) (seq : SequenceNumber32) (now : Int) :
    Except Failure TcpTxBuffer :=
  if s.firstByteSeq.ge seq then .ok s
  else do
    let offset := seq - s.firstByteSeq
    let s ← discard now (offset.toNat + 1) offset s
    let s := if s.size = 0 then { s with firstByteSeq := seq } else s
    let s ← s.settleHead
    if s.sentList.head?.any (·.startSeq ≠ seq) then throw .discardUpTo
    let s := if s.highestSack.2.le s.firstByteSeq then { s with highestSack := noSack } else s
    if s.firstByteSeq.ge seq && s.sackedOut + s.lostOut ≤ s.sentSize then return s
    else throw .discardUpTo

/-! ### Selective acknowledgements -/

abbrev SackBlock := SequenceNumber32 × SequenceNumber32

/-- What one block does to the items, from the one at `start` on, and to the rest of the buffer.
The items are put back by `updateBlocks`. -/
def sackItems (block : SackBlock) : SequenceNumber32 → List TcpTxItem →
    TcpTxBuffer × BitVec 32 → Except Failure (List TcpTxItem × TcpTxBuffer × BitVec 32)
  | _, [], (s, bytesSacked) => .ok ([], s, bytesSacked)
  | start, item :: rest, (s, bytesSacked) =>
    if start.ge block.1 && (start + item.size).le block.2 then
      if item.sacked then
        if item.lost then .error .update
        else do
          let (rest, result) ← sackItems block (start + item.size) rest (s, bytesSacked)
          return (item :: rest, result)
      else do
        let s := { s with
          lostOut := if item.lost then s.lostOut - item.size else s.lostOut
          sackedOut := s.sackedOut + item.size
          highestSack :=
            if s.highestSack.1 = none ∨ s.highestSack.2.le (start + item.size) then
              (some item.node, start)
            else s.highestSack }
        let (rest, result) ← sackItems block (start + item.size) rest
          (s, bytesSacked + item.size)
        return ({ item with lost := false, sacked := true } :: rest, result)
    else if (start + item.size).gt block.2 then .ok (item :: rest, s, bytesSacked)
    else do
      let (rest, result) ← sackItems block (start + item.size) rest (s, bytesSacked)
      return (item :: rest, result)

/-- The blocks in turn, and whether one of them is outside the sent list, where the source returns. -/
def updateBlocks : List SackBlock → TcpTxBuffer × BitVec 32 →
    Except Failure ((TcpTxBuffer × BitVec 32) × Bool)
  | [], result => .ok (result, false)
  | block :: blocks, (s, bytesSacked) =>
    if (s.firstByteSeq + s.sentSize).lt block.1 then .ok ((s, bytesSacked), true)
    else do
      let (items, s, bytesSacked) ← sackItems block s.firstByteSeq s.sentList (s, bytesSacked)
      updateBlocks blocks ({ s with sentList := items }, bytesSacked)

/-- The items up to the one at the node, and the others. -/
def upTo (node : Nat) : List TcpTxItem → Option (List TcpTxItem × List TcpTxItem)
  | [] => none
  | item :: rest =>
    if item.node = node then some ([item], rest)
    else (upTo node rest).map fun parts => (item :: parts.1, parts.2)

/-- A round of the loop, which goes down the list, with the sacked items seen and the count of
lost bytes. -/
def markLost (dupAckThresh : BitVec 32) (item : TcpTxItem) :
    List TcpTxItem × Nat × BitVec 32 → List TcpTxItem × Nat × BitVec 32
  | (items, sacked, lostOut) =>
    let sacked := if item.sacked then sacked + 1 else sacked
    if dupAckThresh.toNat ≤ sacked && !item.sacked && !item.lost then
      ({ item with lost := true } :: items, sacked, lostOut + item.size)
    else (item :: items, sacked, lostOut)

/-- The head is not part of the loop. -/
def updateLostCount (s : TcpTxBuffer) : Except Failure TcpTxBuffer :=
  match s.highestSack.1.bind fun node => upTo node s.sentList with
  | some (head :: walked, above) =>
    let (walked, sacked, lostOut) := walked.foldr (markLost s.dupAckThresh) ([], 0, s.lostOut)
    if s.dupAckThresh.toNat ≤ sacked && !head.lost then .ok { s with
      sentList := { head with lost := true } :: (walked ++ above)
      lostOut := lostOut + head.size }
    else .ok { s with sentList := head :: (walked ++ above), lostOut := lostOut }
  | _ => .error .invalidIterator

/-- After the blocks, when a segment was newly sacked. -/
def recountLost (s : TcpTxBuffer) (bytesSacked : BitVec 32) : Except Failure TcpTxBuffer :=
  if 0 < bytesSacked then
    if s.highestSack.1 = none then .error .update else s.updateLostCount
  else .ok s

def update (s : TcpTxBuffer) (list : List SackBlock) :
    Except Failure (TcpTxBuffer × BitVec 32) := do
  let ((s, bytesSacked), outside) ← updateBlocks list (s, 0)
  if outside then return (s, bytesSacked)
  else
    let s ← s.recountLost bytesSacked
    if s.sentList.head?.any (·.sacked) || s.sentSize < s.sackedOut + s.lostOut then throw .update
    else return (s, bytesSacked)

/-! ### Questions -/

def isLostFrom (seq : SequenceNumber32) : List TcpTxItem → Bool
  | [] => false
  | item :: rest =>
    if item.startSeq.le seq && seq.lt (item.startSeq + item.size) then
      if item.lost then true
      else if item.sacked then false
      else isLostFrom seq rest
    else isLostFrom seq rest

def isLost (s : TcpTxBuffer) (seq : SequenceNumber32) : Bool :=
  if seq.ge s.highestSack.2 then false else isLostFrom seq s.sentList

def isRetransmittedDataAcked (s : TcpTxBuffer) (ack : SequenceNumber32) : Bool :=
  s.sentList.any fun item => item.startSeq + item.size = ack && !item.sacked && item.retrans

/-- The first lost segment, or what is saved for the third rule: a sequence number and whether it
is valid. -/
def nextSegFrom (isRecovery : Bool) : SequenceNumber32 → List TcpTxItem →
    SequenceNumber32 × Bool → Except SequenceNumber32 (SequenceNumber32 × Bool)
  | _, [], rule3 => .ok rule3
  | start, item :: rest, rule3 =>
    if !item.retrans && !item.sacked then
      if item.lost then .error start
      else
        nextSegFrom isRecovery (start + item.size) rest
          (if rule3.1.value = 0 ∧ isRecovery then (start, true) else rule3)
    else nextSegFrom isRecovery (start + item.size) rest rule3

/-- The next sequence number to send and the highest. -/
def nextSeg (s : TcpTxBuffer) (rWnd : BitVec 32) (isRecovery : Bool) :
    Option (SequenceNumber32 × SequenceNumber32) :=
  match nextSegFrom isRecovery s.firstByteSeq s.sentList (⟨0⟩, false) with
  | .error seq => some (seq, seq + s.segmentSize)
  | .ok (seqPerRule3, isSeqPerRule3Valid) =>
    let unsent := s.firstByteSeq + s.sentSize
    if 0 < s.sizeFromSequence unsent then
      if s.sentSize < rWnd then
        some (unsent, unsent + minimum s.segmentSize (rWnd - s.sentSize))
      else none
    else if isSeqPerRule3Valid then some (seqPerRule3, seqPerRule3 + s.segmentSize)
    else none

def bytesInFlight (s : TcpTxBuffer) : Except Failure (BitVec 32) :=
  if s.sentSize < s.sackedOut + s.lostOut then .error .bytesInFlight
  else .ok (s.sentSize - (s.sackedOut + s.lostOut) + s.retrans)

/-! ### Operations -/

inductive Operation
  | setHeadSequence (seq : SequenceNumber32)
  | add (p : Packet)
  | copyFromSequence (numBytes : BitVec 32) (seq : SequenceNumber32) (now : Int)
  | discardUpTo (seq : SequenceNumber32) (now : Int)
  | update (list : List SackBlock)
  | setSentListLost (resetSack : Bool)
  | resetSentList
  | resetLastSegmentSent
  | markHeadAsLost
  | addRenoSack
  | resetRenoSack
  | deleteRetransmittedFlagFromHead
  | sizeFromSequence (seq : SequenceNumber32)
  | isLost (seq : SequenceNumber32)
  | isRetransmittedDataAcked (ack : SequenceNumber32)
  | isHeadRetransmitted
  | nextSeg (rWnd : BitVec 32) (isRecovery : Bool)
  | bytesInFlight

/-- What an operation returns. -/
inductive Result
  | nothing
  | flag (value : Bool)
  | bytes (value : BitVec 32)
  | item (value : Option TcpTxItem)
  | segment (value : Option (SequenceNumber32 × SequenceNumber32))
  deriving DecidableEq

def perform (s : TcpTxBuffer) : Operation → Except Failure (TcpTxBuffer × Result)
  | .setHeadSequence seq => (s.setHeadSequence seq).map fun s => (s, .nothing)
  | .add p => .ok ((s.add p).1, .flag (s.add p).2)
  | .copyFromSequence numBytes seq now =>
    (s.copyFromSequence numBytes seq now).map fun result => (result.1, .item result.2)
  | .discardUpTo seq now => (s.discardUpTo seq now).map fun s => (s, .nothing)
  | .update list => (s.update list).map fun result => (result.1, .bytes result.2)
  | .setSentListLost resetSack => (s.setSentListLost resetSack).map fun s => (s, .nothing)
  | .resetSentList => .ok (s.resetSentList, .nothing)
  | .resetLastSegmentSent => .ok (s.resetLastSegmentSent, .nothing)
  | .markHeadAsLost => .ok (s.markHeadAsLost, .nothing)
  | .addRenoSack => s.addRenoSack.map fun s => (s, .nothing)
  | .resetRenoSack => .ok (s.resetRenoSack, .nothing)
  | .deleteRetransmittedFlagFromHead => .ok (s.deleteRetransmittedFlagFromHead, .nothing)
  | .sizeFromSequence seq => .ok (s, .bytes (s.sizeFromSequence seq))
  | .isLost seq => .ok (s, .flag (s.isLost seq))
  | .isRetransmittedDataAcked ack => .ok (s, .flag (s.isRetransmittedDataAcked ack))
  | .isHeadRetransmitted => .ok (s, .flag s.isHeadRetransmitted)
  | .nextSeg rWnd isRecovery => .ok (s, .segment (s.nextSeg rWnd isRecovery))
  | .bytesInFlight => s.bytesInFlight.map fun bytes => (s, .bytes bytes)

def step (s : TcpTxBuffer) (operation : Operation) : Except Failure TcpTxBuffer :=
  (s.perform operation).map Prod.fst

end TcpTxBuffer

end MoeJit.Tcp
