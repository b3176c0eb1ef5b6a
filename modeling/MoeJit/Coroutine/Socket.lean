import MoeJit.Lib.Bytes
import MoeJit.Lib.Lane
import MoeJit.Lib.Words

/-!
# Coroutine sockets

`CoroutineSocket` turns the callbacks of an ns-3 socket into operations to wait
for. `send` and `receive` build an operation whose condition moves bytes each
time it is evaluated, evaluate it once, and queue it in `pendingSend` or
`pendingReceive` unless it is done; `onSend` and `onReceive` evaluate the queued
ones again. Below a socket is either its own cache (loopback) or a connection
between two ns-3 stream sockets.

A packet is known by its address, as `send` keeps the `Ptr<Packet>` of its caller:
every evaluation takes its bytes out of that packet. The loops of `onSend` and
`onReceive` walk the queue itself. What joins it while a loop runs lies behind the
end of the loop; to come to an operation that has left it is undefined.

The step relation lets the user call a socket at any moment, also between two
resumes of a loop, where the continuation of a finished operation runs, and lets
a wake-up come whenever the simulator is between events.
-/

namespace MoeJit.Coroutine

open Bytes Words List

/-- The bytes of an `ns3::Packet`. `CreateFragment(0, n)` is `take n`,
`RemoveAtStart(n)` is `drop n`, `AddAtEnd` is `++` and `GetSize()` the length. -/
abbrev Packet := List Byte

/-- What one evaluation of a condition leaves behind: the packet of the operation
and what is below the socket. -/
structure Evaluated (σ : Type) where
  done : Bool
  packet : Packet
  medium : σ

/-! ## Loopback -/

/-- A loopback socket: the bytes sent to it and not received. -/
structure Loopback where
  cache : Packet
  cacheLimit : Nat
  le : cache.length ≤ cacheLimit

namespace Loopback

/-- The condition of `send`. -/
def sendCondition (isClosed isBlocked : Bool) (l : Loopback) (packet : Packet) :
    Evaluated Loopback :=
  if isClosed then ⟨true, packet, l⟩
  else
    let available := l.cacheLimit - l.cache.length
    if isBlocked ∨ available ≤ 0 then ⟨false, packet, l⟩
    else
      let sent := min available packet.length
      let fragment := packet.take sent
      have le : (l.cache ++ fragment).length ≤ l.cacheLimit := by
        have := l.le
        rw [List.length_append, List.length_take]
        omega
      ⟨decide ((packet.drop sent).length ≤ 0), packet.drop sent,
        ⟨l.cache ++ fragment, l.cacheLimit, le⟩⟩

/-- The condition of `receive`. Size 0 asks for whatever is there. -/
def receiveCondition (isClosed isBlocked : Bool) (l : Loopback) (size : Nat) (data : Packet) :
    Evaluated Loopback :=
  if isClosed then ⟨true, data, l⟩
  else if isBlocked ∨ l.cache.length ≤ 0 then ⟨false, data, l⟩
  else
    let required := if size ≤ 0 then l.cache.length else size - data.length
    let received := min required l.cache.length
    let packet := l.cache.take received
    have le : (l.cache.drop received).length ≤ l.cacheLimit :=
      (List.length_drop ▸ Nat.sub_le _ _ : _ ≤ l.cache.length).trans l.le
    ⟨decide (size ≤ (data ++ packet).length), data ++ packet,
      ⟨l.cache.drop received, l.cacheLimit, le⟩⟩

end Loopback

/-! ## Connections -/

/-- One direction of an established connection between two ns-3 stream sockets. -/
structure Connection where
  /-- `m_maxBuffer` of the buffer that the sending socket writes to -/
  maxBuffer : Nat
  /-- its `m_size`, the bytes accepted and not acknowledged -/
  txSize : Nat
  /-- bytes accepted that have not reached the other end -/
  wire : Packet
  /-- bytes that the other end can read -/
  rxBuffer : Packet
  wire_le : wire.length ≤ txSize
  le : txSize ≤ maxBuffer

namespace Connection

/-- `GetTxAvailable()`. -/
def getTxAvailable (c : Connection) : Nat := c.maxBuffer - c.txSize

/-- `Send(p)`: a packet is accepted whole or not at all. -/
def send (c : Connection) (p : Packet) : Option Connection :=
  if h : p.length ≤ c.getTxAvailable then
    some { c with
      txSize := c.txSize + p.length
      wire := c.wire ++ p
      wire_le := by
        have := c.wire_le
        rw [List.length_append]
        omega
      le := by
        have := c.le
        unfold getTxAvailable at h
        omega }
  else none

/-- `GetRxAvailable()`. -/
def getRxAvailable (c : Connection) : Nat := c.rxBuffer.length

/-- `Recv(maxSize)` with the 32-bit size already converted; a read of no bytes
returns no packet. -/
def recv (c : Connection) (maxSize : Nat) : Option (Packet × Connection) :=
  let extractSize := min maxSize c.rxBuffer.length
  if extractSize = 0 then none
  else some (c.rxBuffer.take extractSize, { c with rxBuffer := c.rxBuffer.drop extractSize })

/-- The condition of `send`, a loop over what the socket accepts. -/
def sendCondition (isClosed isBlocked : Bool) (c : Connection) (packet : Packet) :
    Evaluated Connection :=
  if isClosed then ⟨true, packet, c⟩
  else
    let available := c.getTxAvailable
    if _hstop : isBlocked ∨ available ≤ 0 then ⟨false, packet, c⟩
    else
      let size := min available packet.length
      match c.send (packet.take size) with
      | none => ⟨true, packet, c⟩
      | some c' =>
        if _hrest : 0 < (packet.drop size).length then
          sendCondition isClosed isBlocked c' (packet.drop size)
        else ⟨true, packet.drop size, c'⟩
termination_by packet.length
decreasing_by
  simp only [List.length_drop] at _hrest ⊢
  omega

theorem length_of_recv {c c' : Connection} {maxSize : Nat} {packet : Packet}
    (h : c.recv maxSize = some (packet, c')) : c'.rxBuffer.length < c.rxBuffer.length := by
  simp only [recv] at h
  split at h
  · cases h
  · cases h
    simp only [length_drop]
    omega

/-- The condition of `receive`, a loop over what the socket has. `Recv` takes a
32-bit size, which the number of available bytes already is. -/
def receiveCondition (isClosed isBlocked : Bool) (c : Connection) (size : Nat) (data : Packet) :
    Evaluated Connection :=
  if isClosed then ⟨true, data, c⟩
  else if isBlocked ∨ c.getRxAvailable ≤ 0 then ⟨false, data, c⟩
  else
    let required := if size ≤ 0 then c.getRxAvailable else u32 (size - data.length)
    match _h : c.recv required with
    | none => ⟨true, data, c⟩
    | some (packet, c') =>
      if (data ++ packet).length < size then
        receiveCondition isClosed isBlocked c' size (data ++ packet)
      else ⟨true, data ++ packet, c'⟩
termination_by c.rxBuffer.length
decreasing_by exact length_of_recv _h

/-- The next `k` bytes reach the other end. -/
def arrive (c : Connection) (k : Nat) : Connection :=
  { c with
    rxBuffer := c.rxBuffer ++ c.wire.take k
    wire := c.wire.drop k
    wire_le := (List.length_drop ▸ Nat.sub_le _ _ : _ ≤ c.wire.length).trans c.wire_le }

/-- `k` bytes that have arrived are acknowledged. -/
def acked (c : Connection) (k : Nat) : Connection :=
  { c with
    txSize := c.txSize - min k (c.txSize - c.wire.length)
    wire_le := by
      have := c.wire_le
      omega
    le := (Nat.sub_le _ _).trans c.le }

end Connection

/-! ## Sockets -/

/-- What is below a socket, in one direction. -/
inductive Medium
  | loopback (l : Loopback)
  | connection (c : Connection)

namespace Medium

/-- The bytes sent and not received. -/
def content : Medium → Packet
  | loopback l => l.cache
  | connection c => c.rxBuffer ++ c.wire

/-- Room for another byte. -/
def Writable : Medium → Prop
  | loopback l => l.cache.length < l.cacheLimit
  | connection c => 0 < c.getTxAvailable

/-- A byte to read. -/
def Readable : Medium → Prop
  | loopback l => 0 < l.cache.length
  | connection c => 0 < c.getRxAvailable

instance : DecidablePred Writable := fun
  | loopback l => inferInstanceAs (Decidable (l.cache.length < l.cacheLimit))
  | connection c => inferInstanceAs (Decidable (0 < c.getTxAvailable))

instance : DecidablePred Readable := fun
  | loopback l => inferInstanceAs (Decidable (0 < l.cache.length))
  | connection c => inferInstanceAs (Decidable (0 < c.getRxAvailable))

def sendCondition (isClosed isBlocked : Bool) (packet : Packet) : Medium → Evaluated Medium
  | loopback l =>
    let e := l.sendCondition isClosed isBlocked packet
    ⟨e.done, e.packet, loopback e.medium⟩
  | connection c =>
    let e := c.sendCondition isClosed isBlocked packet
    ⟨e.done, e.packet, connection e.medium⟩

def receiveCondition (isClosed isBlocked : Bool) (size : Nat) (data : Packet) :
    Medium → Evaluated Medium
  | loopback l =>
    let e := l.receiveCondition isClosed isBlocked size data
    ⟨e.done, e.packet, loopback e.medium⟩
  | connection c =>
    let e := c.receiveCondition isClosed isBlocked size data
    ⟨e.done, e.packet, connection e.medium⟩

def arrive (k : Nat) : Medium → Medium
  | loopback l => loopback l
  | connection c => connection (c.arrive k)

def acked (k : Nat) : Medium → Medium
  | loopback l => loopback l
  | connection c => connection (c.acked k)

end Medium

/-- A `SendOperation`: the address of the packet given to `send`, and the bytes
that the packet had then. -/
structure SendOperation where
  packet : Nat
  given : Packet
  done : Bool

/-- A `ReceiveOperation`: the size asked for and what has been received. -/
structure ReceiveOperation where
  size : Nat
  data : Packet
  done : Bool

structure CoroutineSocket where
  isBlocked : Bool := false
  isClosed : Bool := false
  sends : Lane SendOperation := {}
  receives : Lane ReceiveOperation := {}

/-- A loop of `onSend` or `onReceive` with the operations it still has to resume,
or the call of `onReceive` at the end of `unblock`. -/
inductive Loop (ι : Type)
  | onSend (i : ι) (operations : List Nat)
  | onReceive (i : ι) (operations : List Nat)
  | unblock (i : ι)

/-- Sockets and what is below them: `media i` takes what socket `i` sends.
`packets` holds the packets of the users by address. The loops that run are a
stack. -/
structure World (ι : Type) where
  sockets : ι → CoroutineSocket
  media : ι → Medium
  packets : Nat → Packet
  loops : List (Loop ι)

variable {ι : Type} [DecidableEq ι]

/-- Evaluates the condition of a receive. -/
def evaluateReceive (s : CoroutineSocket) (m : Medium) (op : ReceiveOperation) :
    ReceiveOperation × Medium :=
  let e := m.receiveCondition s.isClosed s.isBlocked op.size op.data
  ({ op with data := e.packet, done := e.done }, e.medium)

namespace World

def update (w : World ι) (i : ι) (s : CoroutineSocket) (j : ι) (m : Medium) : World ι :=
  { w with sockets := Function.update w.sockets i s, media := Function.update w.media j m }

/-- Evaluates the condition of a send on socket `i` of the packet at an address. -/
def evaluateSend (w : World ι) (i : ι) (packet : Nat) : Evaluated Medium :=
  (w.media i).sendCondition (w.sockets i).isClosed (w.sockets i).isBlocked (w.packets packet)

/-- Socket `i` after an evaluation of a send of the packet at an address. -/
def afterSend (w : World ι) (i : ι) (packet : Nat) (sends : Lane SendOperation)
    (e : Evaluated Medium) : World ι :=
  { w.update i { w.sockets i with sends := sends } i e.medium with
    packets := Function.update w.packets packet e.packet }

/-- `send(packet)` on socket `i`. -/
def send (w : World ι) (i : ι) (packet : Nat) : World ι :=
  let s := w.sockets i
  if s.isClosed then w
  else
    let e := w.evaluateSend i packet
    w.afterSend i packet (s.sends.issue SendOperation.done ⟨packet, w.packets packet, e.done⟩) e

/-- `receive(size)` on socket `i`, which reads what socket `j` sends. -/
def receive (w : World ι) (i j : ι) (size : Nat) : World ι :=
  let s := w.sockets i
  if s.isClosed then w
  else
    let e := evaluateReceive s (w.media j) ⟨size, [], false⟩
    w.update i { s with receives := s.receives.issue ReceiveOperation.done e.1 } j e.2

/-- `operation.resume()` in a loop of `onSend`; the loop goes on if the operation
is done. -/
def resumeSend (w : World ι) (i : ι) (k : Nat) : Option (Bool × World ι) :=
  let s := w.sockets i
  (s.sends.queued k).map fun op =>
    if op.done then (true, w)
    else
      let e := w.evaluateSend i op.packet
      (e.done, w.afterSend i op.packet
        (s.sends.resume SendOperation.done k ⟨op.packet, op.given, e.done⟩) e)

/-- `operation.resume()` in a loop of `onReceive`. -/
def resumeReceive (w : World ι) (i j : ι) (k : Nat) : Option (Bool × World ι) :=
  let s := w.sockets i
  (s.receives.queued k).map fun op =>
    if op.done then (true, w)
    else
      let e := evaluateReceive s (w.media j) op
      (e.1.done, w.update i { s with receives := s.receives.resume ReceiveOperation.done k e.1 } j e.2)

/-- The innermost loop goes on. There is no result where this is undefined, when
the loop comes to an operation that has been taken off the queue. -/
def resume (peer : ι → ι) (w : World ι) : Option (World ι) :=
  match w.loops with
  | [] => none
  | .onSend _ [] :: loops => some { w with loops := loops }
  | .onReceive _ [] :: loops => some { w with loops := loops }
  | .onSend i (k :: operations) :: loops =>
    (w.resumeSend i k).map fun (done, w') =>
      { w' with loops := if done then .onSend i operations :: loops else loops }
  | .onReceive i (k :: operations) :: loops =>
    (w.resumeReceive i (peer i) k).map fun (done, w') =>
      { w' with loops := if done then .onReceive i operations :: loops else loops }
  | .unblock i :: loops =>
    some { w with loops := .onReceive i (w.sockets i).receives.pending :: loops }

/-- `block()`. -/
def block (w : World ι) (i : ι) : World ι :=
  { w with sockets := Function.update w.sockets i { w.sockets i with isBlocked := true } }

/-- `unblock()`, up to its loops. -/
def unblock (w : World ι) (i : ι) : World ι :=
  { w with
    sockets := Function.update w.sockets i { w.sockets i with isBlocked := false }
    loops := .onSend i (w.sockets i).sends.pending :: .unblock i :: w.loops }

/-- An event of the simulator, which runs when no loop does. -/
def event (w w' : World ι) : Option (World ι) := if w.loops.isEmpty then some w' else none

end World

inductive Action (ι : Type)
  | write (packet : Nat) (bytes : Packet)
  | send (i : ι) (packet : Nat)
  | receive (i : ι) (size : Nat)
  | block (i : ι)
  | unblock (i : ι)
  | resume
  | onSend (i : ι)
  | onReceive (i : ι)
  | arrive (i : ι) (k : Nat)
  | acked (i : ι) (k : Nat)

/-- One step of the sockets; socket `i` reads what socket `peer i` sends. With
`write` a user makes or changes a packet of its own. -/
def step (peer : ι → ι) (w : World ι) : Action ι → Option (World ι)
  | .write packet bytes => some { w with packets := Function.update w.packets packet bytes }
  | .send i packet => some (w.send i packet)
  | .receive i size => some (w.receive i (peer i) size)
  | .block i => some (w.block i)
  | .unblock i => some (w.unblock i)
  | .resume => w.resume peer
  | .onSend i => w.event { w with loops := [.onSend i (w.sockets i).sends.pending] }
  | .onReceive i => w.event { w with loops := [.onReceive i (w.sockets i).receives.pending] }
  | .arrive i k => w.event { w with media := Function.update w.media i ((w.media i).arrive k) }
  | .acked i k => w.event { w with media := Function.update w.media i ((w.media i).acked k) }

/-- Sockets that have not been used, and the packets that the users hold then. -/
def World.start (media : ι → Medium) (packets : Nat → Packet) : World ι :=
  ⟨fun _ => {}, media, packets, []⟩

/-! ## What an evaluation does -/

/-- An evaluation of the condition of a send moves a first part of the packet
below the socket. -/
structure Sent (blocked : Prop) (packet before : Packet) (done : Bool) (rest after : Packet)
    (moved : Packet) : Prop where
  packet_eq : packet = moved ++ rest
  content_eq : after = before ++ moved
  rest_eq : done → rest = []
  moved_eq : blocked → moved = []

theorem Loopback.sendCondition_spec (blocked : Bool) (l : Loopback) (packet : Packet) :
    ∃ moved, Sent (blocked ∨ ¬ l.cache.length < l.cacheLimit) packet l.cache
      (l.sendCondition false blocked packet).done (l.sendCondition false blocked packet).packet
      (l.sendCondition false blocked packet).medium.cache moved := by
  simp only [Loopback.sendCondition, Bool.false_eq_true, if_false]
  split
  case isTrue hstop => exact ⟨[], rfl, (append_nil _).symm, nofun, fun _ => rfl⟩
  case isFalse hgo =>
    refine ⟨_, (take_append_drop _ packet).symm, rfl, fun hdone => ?_, fun hno => ?_⟩
    · exact length_eq_zero_iff.mp (Nat.le_zero.mp (of_decide_eq_true hdone))
    · exact absurd (hno.imp_right fun h => Nat.sub_eq_zero_of_le (not_lt.mp h) ▸ le_rfl) hgo

theorem Connection.sendCondition_spec (blocked : Bool) (c : Connection) (packet : Packet) :
    ∃ moved, Sent (blocked ∨ ¬ 0 < c.getTxAvailable) packet c.wire
        (c.sendCondition false blocked packet).done (c.sendCondition false blocked packet).packet
        (c.sendCondition false blocked packet).medium.wire moved ∧
      (c.sendCondition false blocked packet).medium.rxBuffer = c.rxBuffer := by
  induction hn : packet.length using Nat.strong_induction_on generalizing c packet with
  | _ n ih =>
    rw [Connection.sendCondition]
    simp only [Bool.false_eq_true, if_false]
    split
    case isTrue hstop => exact ⟨[], ⟨rfl, (append_nil _).symm, nofun, fun _ => rfl⟩, rfl⟩
    case isFalse hgo =>
      have hfits : (packet.take (min c.getTxAvailable packet.length)).length ≤ c.getTxAvailable := by
        rw [length_take]
        omega
      simp only [Connection.send, hfits, dif_pos]
      split
      case isTrue hrest =>
        -- the next iteration goes on with the rest of the packet
        obtain ⟨moved, hsent, hrx⟩ := ih _ (by
          rw [← hn, length_drop]
          rw [length_drop] at hrest
          omega) { c with
            txSize := c.txSize + (packet.take (min c.getTxAvailable packet.length)).length
            wire := c.wire ++ packet.take (min c.getTxAvailable packet.length)
            wire_le := _
            le := _ } (packet.drop (min c.getTxAvailable packet.length)) rfl
        refine ⟨packet.take (min c.getTxAvailable packet.length) ++ moved, ⟨?_, ?_, hsent.rest_eq, ?_⟩, hrx⟩
        · rw [append_assoc, ← hsent.packet_eq, take_append_drop]
        · rw [hsent.content_eq, append_assoc]
        · exact fun hno => absurd (hno.imp_right not_lt.mp) hgo
      case isFalse hrest =>
        refine ⟨_, ⟨(take_append_drop _ packet).symm, rfl, fun _ => ?_, fun hno => ?_⟩, rfl⟩
        · exact length_eq_zero_iff.mp (Nat.eq_zero_of_not_pos hrest)
        · exact absurd (hno.imp_right not_lt.mp) hgo

/-- An evaluation of the condition of a receive moves a first part of what is
below the socket to its data. -/
structure Received (blocked : Prop) (size : Nat) (data before : Packet) (done : Bool)
    (data' after : Packet) (moved : Packet) : Prop where
  data_eq : data' = data ++ moved
  content_eq : before = moved ++ after
  done_iff : done ↔ data'.length = size
  length_le : data'.length ≤ size
  moved_eq : blocked → moved = []

variable {size : Nat} {data : Packet}

theorem Loopback.receiveCondition_spec (blocked : Bool) (l : Loopback) (hsize : data.length < size)
    :
    ∃ moved, Received (blocked ∨ ¬ 0 < l.cache.length) size data l.cache
      (l.receiveCondition false blocked size data).done
      (l.receiveCondition false blocked size data).packet
      (l.receiveCondition false blocked size data).medium.cache moved := by
  simp only [Loopback.receiveCondition, Bool.false_eq_true, if_false]
  split
  case isTrue hstop =>
    exact ⟨[], (append_nil _).symm, rfl, by simpa using hsize.ne, hsize.le, fun _ => rfl⟩
  case isFalse hgo =>
    have hpos : ¬ size ≤ 0 := by omega
    simp only [hpos, if_false]
    refine ⟨_, rfl, (take_append_drop _ l.cache).symm, ?_, ?_, fun hno => ?_⟩
    · simp only [decide_eq_true_eq, length_append, length_take]
      omega
    · simp only [length_append, length_take]
      omega
    · exact absurd (hno.imp_right not_lt.mp) hgo

/-- What an evaluation of the condition of a receive leaves of a connection when
`k` bytes are to come. `Recv` is asked for a number of bytes converted to 32
bits, so that an operation of `2 ^ 32` bytes or more stops at its size converted to
32 bits, and is done with that as soon as another byte is there. -/
theorem Connection.receiveCondition_eq (c : Connection) {k : Nat} (hpos : 0 < size)
    (hmissing : data.length + k = u32 size) (hlt : size < 2 ^ 32 → 0 < k) :
    c.receiveCondition false false size data =
      ⟨decide (k ≤ c.rxBuffer.length ∧ (size < 2 ^ 32 ∨ k < c.rxBuffer.length)),
        data ++ c.rxBuffer.take k, { c with rxBuffer := c.rxBuffer.drop k }⟩ := by
  induction hn : c.rxBuffer.length using Nat.strong_induction_on generalizing c data k with
  | _ n ih =>
    subst hn
    have hsmall : size < 2 ^ 32 → u32 size = size := u32_of_lt
    have hle := u32_le size
    have hlt32 := u32_lt size
    have hasked : (if size ≤ 0 then c.rxBuffer.length else u32 (size - data.length)) = k := by
      rw [if_neg (Nat.not_le.mpr hpos)]
      unfold u32 at hmissing ⊢
      omega
    rw [Connection.receiveCondition]
    simp only [Bool.false_eq_true, if_false, false_or, Connection.getRxAvailable]
    split
    case isTrue hempty =>
      -- nothing to read
      have hrx : c.rxBuffer = [] := length_eq_zero_iff.mp (Nat.le_zero.mp hempty)
      obtain ⟨_, _, _, rx, _, _⟩ := c
      obtain rfl : rx = [] := hrx
      simp only [take_nil, drop_nil, append_nil, length_nil, Evaluated.mk.injEq, and_true]
      exact (decide_eq_false (by omega)).symm
    case isFalse hsome =>
      split
      case h_1 hnone =>
        rw [hasked] at hnone
        have hzero : k = 0 := by
          simp only [recv] at hnone
          split at hnone
          · omega
          · cases hnone
        subst hzero
        simp only [take_zero, append_nil, drop_zero, Evaluated.mk.injEq, and_true]
        exact (decide_eq_true ⟨Nat.zero_le _, .inr (Nat.pos_of_ne_zero fun h => hsome h.le)⟩).symm
      case h_2 packet c' hrec =>
        rw [hasked] at hrec
        simp only [recv] at hrec
        split at hrec
        case isTrue => cases hrec
        case isFalse hzero =>
          cases hrec
          simp only [← take_eq_take_min, ← drop_eq_drop_min]
          have hlen : (data ++ c.rxBuffer.take k).length =
              data.length + min k c.rxBuffer.length := by
            rw [length_append, length_take]
          split
          case isTrue hmore =>
            -- either nothing is left to read or the size converted to 32 bits is reached
            have hstop : c.rxBuffer.drop k = [] ∨ k - min k c.rxBuffer.length = 0 := by
              rw [drop_eq_nil_iff]
              omega
            have htake : (c.rxBuffer.drop k).take (k - min k c.rxBuffer.length) = [] := by
              rcases hstop with h | h
              · rw [h, take_nil]
              · rw [h, take_zero]
            have hdrop : (c.rxBuffer.drop k).drop (k - min k c.rxBuffer.length) =
                c.rxBuffer.drop k := by
              rcases hstop with h | h
              · rw [h, drop_nil]
              · rw [h, drop_zero]
            rw [ih (c.rxBuffer.drop k).length (by rw [length_drop]; omega) _
              (k := k - min k c.rxBuffer.length) (by omega) (by omega) rfl]
            simp only [htake, hdrop, append_nil, Evaluated.mk.injEq, and_true, decide_eq_decide,
              length_drop]
            omega
          case isFalse henough =>
            simp only [Evaluated.mk.injEq, and_true]
            exact (decide_eq_true (by omega)).symm

theorem Connection.receiveCondition_spec (blocked : Bool) (c : Connection)
    (hsize : data.length < size) (hlt : size < 2 ^ 32) :
    ∃ moved, Received (blocked ∨ ¬ 0 < c.getRxAvailable) size data c.rxBuffer
        (c.receiveCondition false blocked size data).done
        (c.receiveCondition false blocked size data).packet
        (c.receiveCondition false blocked size data).medium.rxBuffer moved ∧
      (c.receiveCondition false blocked size data).medium.wire = c.wire := by
  cases blocked with
  | true =>
    rw [Connection.receiveCondition]
    simp only [Bool.false_eq_true, if_false, true_or, if_true]
    exact ⟨[], ⟨(append_nil _).symm, rfl, by simpa using hsize.ne, hsize.le, fun _ => rfl⟩, trivial⟩
  | false =>
    rw [c.receiveCondition_eq (k := size - data.length) (Nat.zero_lt_of_lt hsize)
      (by rw [u32_of_lt hlt]; omega) fun _ => Nat.sub_pos_of_lt hsize]
    refine ⟨_, ⟨rfl, (take_append_drop _ c.rxBuffer).symm, ?_, ?_, ?_⟩, rfl⟩
    · simp only [decide_eq_true_eq, length_append, length_take]
      omega
    · simp only [length_append, length_take]
      omega
    · rintro (h | h)
      · cases h
      · have hrx : c.rxBuffer = [] := length_eq_zero_iff.mp (Nat.eq_zero_of_not_pos h)
        rw [hrx, take_nil]

namespace Medium

theorem sendCondition_spec (blocked : Bool) (m : Medium) (packet : Packet) :
    ∃ moved, Sent (blocked ∨ ¬ m.Writable) packet m.content
      (m.sendCondition false blocked packet).done (m.sendCondition false blocked packet).packet
      (m.sendCondition false blocked packet).medium.content moved := by
  cases m with
  | loopback l => exact l.sendCondition_spec blocked packet
  | connection c =>
    obtain ⟨moved, hsent, hrx⟩ := c.sendCondition_spec blocked packet
    refine ⟨moved, hsent.packet_eq, ?_, hsent.rest_eq, hsent.moved_eq⟩
    change (c.sendCondition false blocked packet).medium.rxBuffer ++
      (c.sendCondition false blocked packet).medium.wire = c.rxBuffer ++ c.wire ++ moved
    rw [hrx, hsent.content_eq, append_assoc]

theorem receiveCondition_spec (blocked : Bool) (m : Medium) (hsize : data.length < size)
    (hlt : size < 2 ^ 32) :
    ∃ moved, Received (blocked ∨ ¬ m.Readable) size data m.content
      (m.receiveCondition false blocked size data).done
      (m.receiveCondition false blocked size data).packet
      (m.receiveCondition false blocked size data).medium.content moved := by
  cases m with
  | loopback l => exact l.receiveCondition_spec blocked hsize
  | connection c =>
    obtain ⟨moved, hrec, hwire⟩ := c.receiveCondition_spec blocked hsize hlt
    refine ⟨moved, hrec.data_eq, ?_, hrec.done_iff, hrec.length_le, hrec.moved_eq⟩
    change c.rxBuffer ++ c.wire = moved ++
      ((c.receiveCondition false blocked size data).medium.rxBuffer ++
        (c.receiveCondition false blocked size data).medium.wire)
    rw [hwire, hrec.content_eq, append_assoc]

@[simp] theorem content_arrive (k : Nat) (m : Medium) : (m.arrive k).content = m.content := by
  cases m with
  | loopback l => rfl
  | connection c =>
    change c.rxBuffer ++ c.wire.take k ++ c.wire.drop k = c.rxBuffer ++ c.wire
    rw [append_assoc, take_append_drop]

@[simp] theorem content_acked (k : Nat) (m : Medium) : (m.acked k).content = m.content := by
  cases m <;> rfl

end Medium

end MoeJit.Coroutine
