import MoeJit.Coroutine.Socket

/-!
# The order of socket operations

The operations of one socket are meant to be served in the order of their calls:
the reader gets the concatenation of the packets, cut at the sizes asked for. A
new operation evaluates its condition before it joins the queue, though, and moves
bytes ahead of the operations that wait there if bytes can be moved at that moment.
Its packet is still the caller's, too: one that is changed or sent again while a
send holds it is not sent as it was given.

`fifo_of_inTurn`: in a run in which every operation is called when that cannot
happen, the order is kept in every state. `fifo_overtaken`: two calls of `receive`
with a packet that arrives between them are enough to break it.

The proof follows the sends as `Transfer`s, which hold their bytes themselves. A
step on one packet is a step of one transfer, as no two that wait share a packet
with bytes in it.
-/

namespace MoeJit.Coroutine

open Bytes Words List Function
open CoroutineSocket (isClosed)

/-! ## 1. Statement -/

/-- A send by the bytes it was given and the bytes it has still to send. -/
structure Transfer where
  packet : Packet
  rest : Packet
  done : Bool

/-- An operation that is done has let go of its packet. -/
def SendOperation.transfer (packets : Nat → Packet) (op : SendOperation) : Transfer :=
  ⟨op.given, if op.done then [] else packets op.packet, op.done⟩

/-- The packets of the sends as they were given, in the order of the calls. -/
def given (l : Lane Transfer) : Packet := l.ops.flatMap Transfer.packet

/-- What the sends have still to send. -/
def unsent (l : Lane Transfer) : Packet := l.ops.flatMap Transfer.rest

/-- What the receives have got, in the order of the calls. -/
def received (l : Lane ReceiveOperation) : Packet := l.ops.flatMap ReceiveOperation.data

/-- Where the bytes of the `k`-th receive begin. -/
def offset (l : Lane ReceiveOperation) (k : Nat) : Nat :=
  ((l.ops.take k).map ReceiveOperation.size).sum

variable {ι : Type}

namespace World

/-- The sends of socket `i`. -/
def transfers (w : World ι) (i : ι) : Lane Transfer :=
  (w.sockets i).sends.map (SendOperation.transfer w.packets)

/-- Operation `k` of socket `i` waits to send the packet at an address. -/
def Waits (w : World ι) (i : ι) (k packet : Nat) : Prop :=
  ∃ op, (w.sockets i).sends.ops[k]? = some op ∧ op.done = false ∧ op.packet = packet

/-- The operation that the innermost loop comes to is still in its queue. -/
def NextQueued (w : World ι) : Prop :=
  match w.loops with
  | .onSend i (k :: _) :: _ => k ∈ (w.sockets i).sends.pending
  | .onReceive i (k :: _) :: _ => k ∈ (w.sockets i).receives.pending
  | _ => True

end World

/-- Socket `i` is served in order: what it sends reaches the other end as the
concatenation of its packets, and every receive there that is done has the bytes
between its own offsets. -/
structure Fifo (peer : ι → ι) (w : World ι) (i : ι) : Prop where
  flow : received (w.sockets (peer i)).receives ++ (w.media i).content ++
    unsent (w.transfers i) = given (w.transfers i)
  cut : ∀ k op, (w.sockets (peer i)).receives.ops[k]? = some op → op.done →
    op.data.length = op.size ∧ op.data =
      ((given (w.transfers i)).drop (offset (w.sockets (peer i)).receives k)).take op.size

/-- A call that does not overtake: no earlier operation waits, or no byte can be
moved now. A packet that a send waits with is left alone, and loops meet only
operations that wait. -/
def InTurn (peer : ι → ι) (w : World ι) : Action ι → Prop
  | .write packet _ => ∀ i k, ¬ w.Waits i k packet
  | .send i packet => w.packets packet = [] ∨ (∀ j k, ¬ w.Waits j k packet) ∧
      (unsent (w.transfers i) = [] ∨ (w.sockets i).isBlocked ∨ ¬ (w.media i).Writable)
  | .receive i size => (0 < size ∧ size < 2 ^ 32) ∧ ((w.sockets i).receives.pending = [] ∨
      (w.sockets i).isBlocked ∨ ¬ (w.media (peer i)).Readable)
  | .resume => w.NextQueued
  | _ => True

/-- A step by a call in turn or of the sockets themselves. -/
def StepInTurn [DecidableEq ι] (peer : ι → ι) (w w' : World ι) : Prop :=
  ∃ a, InTurn peer w a ∧ step peer w a = some w'

/-! ## 2. One operation -/

/-- The sends of a socket. -/
structure SendsInv (l : Lane Transfer) : Prop where
  tidy : l.Tidy Transfer.done
  sent : ∀ op ∈ l.ops, op.done → op.rest = []

/-- A receive is done when it has what it asked for. -/
structure ReceiveOperation.Exact (op : ReceiveOperation) : Prop where
  pos : 0 < op.size
  lt : op.size < 2 ^ 32
  done_iff : op.done ↔ op.data.length = op.size
  length_le : op.data.length ≤ op.size

/-- The receives of a socket: behind one that is not done, nothing has been received. -/
structure ReceivesInv (l : Lane ReceiveOperation) : Prop where
  tidy : l.Tidy ReceiveOperation.done
  exact : ∀ op ∈ l.ops, op.Exact
  untouched : ∀ (j k : Nat) (op op' : ReceiveOperation), j < k → l.ops[j]? = some op → l.ops[k]? = some op' →
    op.done = false → op'.data = []

variable {s : CoroutineSocket} {m : Medium}

theorem evaluateReceive_spec (hopen : s.isClosed = false) (m : Medium) (op : ReceiveOperation)
    (hpos : op.data.length < op.size) (hlt : op.size < 2 ^ 32) :
    ∃ moved, (evaluateReceive s m op).1.Exact ∧ (evaluateReceive s m op).1.data = op.data ++ moved ∧
      m.content = moved ++ (evaluateReceive s m op).2.content ∧
      (s.isBlocked ∨ ¬ m.Readable → moved = []) := by
  obtain ⟨moved, hrec⟩ := m.receiveCondition_spec s.isBlocked hpos hlt
  rw [← hopen] at hrec
  exact ⟨moved, ⟨Nat.zero_lt_of_lt hpos, hlt, hrec.done_iff, hrec.length_le⟩, hrec.data_eq,
    hrec.content_eq, hrec.moved_eq⟩

variable {op : Transfer} {l : Lane Transfer} {k : Nat} {rest : List Nat} {moved : Packet}

theorem SendsInv.issue (h : SendsInv l) {before after : Packet} {done : Bool} {left : Packet}
    {packet : Packet} {blocked : Prop}
    (hsent : Sent blocked packet before done left after moved)
    (hturn : packet = [] ∨ unsent l = [] ∨ blocked) :
    SendsInv (l.issue Transfer.done ⟨packet, left, done⟩) ∧
      after ++ unsent (l.issue Transfer.done ⟨packet, left, done⟩) =
        before ++ unsent l ++ packet ∧
      given (l.issue Transfer.done ⟨packet, left, done⟩) = given l ++ packet := by
  refine ⟨⟨h.tidy.issue _, fun op hop hdone => ?_⟩, ?_, ?_⟩
  · rcases mem_append.mp hop with hold | hnew
    · exact h.sent op hold hdone
    · obtain rfl := mem_singleton.mp hnew
      exact hsent.rest_eq hdone
  · have hunsent : unsent (l.issue Transfer.done ⟨packet, left, done⟩) = unsent l ++ left := by
      simp [unsent, Lane.issue]
    have hswap : moved ++ (unsent l ++ left) = unsent l ++ (moved ++ left) := by
      rcases hturn with rfl | hnone | hblocked
      · obtain rfl : moved = [] := (append_eq_nil_iff.mp hsent.packet_eq.symm).1
        rfl
      · rw [hnone]
        rfl
      · rw [hsent.moved_eq hblocked]
        rfl
    rw [hunsent, hsent.content_eq, append_assoc, hswap, ← hsent.packet_eq, append_assoc]
  · simp [given, Lane.issue]

theorem SendsInv.resume (h : SendsInv l) (hp : l.pending = k :: rest) (hk : l.ops[k]? = some op)
    {before after : Packet} {done : Bool} {left : Packet} {blocked : Prop}
    (hsent : Sent blocked op.rest before done left after moved) :
    SendsInv (l.resume Transfer.done k ⟨op.packet, left, done⟩) ∧
      after ++ unsent (l.resume Transfer.done k ⟨op.packet, left, done⟩) = before ++ unsent l ∧
      given (l.resume Transfer.done k ⟨op.packet, left, done⟩) = given l := by
  refine ⟨⟨h.tidy.resume hp hk, fun op' hop' hdone => ?_⟩, ?_, Lane.flatMap_set_same hk rfl⟩
  · rcases mem_or_eq_of_mem_set hop' with hold | rfl
    · exact h.sent op' hold hdone
    · exact hsent.rest_eq hdone
  · have hfirst : unsent l =
        moved ++ unsent (l.resume Transfer.done k ⟨op.packet, left, done⟩) :=
      Lane.flatMap_set_first hk (fun j hj op' hop' =>
        h.sent op' (mem_of_getElem? hop') (h.tidy.done_before hp hj hop')) hsent.packet_eq
    rw [hfirst, hsent.content_eq, append_assoc]

variable {lr : Lane ReceiveOperation} {new op₀ : ReceiveOperation}

theorem ReceivesInv.issue (h : ReceivesInv lr) (hexact : new.Exact) {blocked : Prop}
    (hturn : lr.pending = [] ∨ blocked) (hmoved : blocked → new.data = []) :
    ReceivesInv (lr.issue ReceiveOperation.done new) ∧
      received (lr.issue ReceiveOperation.done new) = received lr ++ new.data := by
  refine ⟨⟨h.tidy.issue _, fun op hop => ?_, fun j k op op' hjk hj hk hnot => ?_⟩, ?_⟩
  · rcases mem_append.mp hop with hold | hnew
    · exact h.exact op hold
    · exact mem_singleton.mp hnew ▸ hexact
  · rcases lt_trichotomy k lr.ops.length with hlt | rfl | hgt
    · rw [Lane.issue, getElem?_append_left hlt] at hk
      rw [Lane.issue, getElem?_append_left (hjk.trans hlt)] at hj
      exact h.untouched j k op op' hjk hj hk hnot
    · -- the new one: some earlier operation waits, so nothing could be moved
      rw [Lane.issue, getElem?_append_left hjk] at hj
      obtain rfl : new = op' := by simpa [Lane.issue] using hk
      have hmem : j ∈ lr.pending := (h.tidy.mem_iff j).mpr ⟨op, hj, hnot⟩
      exact hmoved (hturn.resolve_left (ne_nil_of_mem hmem))
    · have hout := (List.getElem?_eq_some_iff.mp hk).1
      rw [Lane.issue, length_append, length_singleton] at hout
      exact absurd hout (Nat.not_lt.mpr hgt)
  · simp [received, Lane.issue]

theorem ReceivesInv.resume (h : ReceivesInv lr) (hp : lr.pending = k :: rest)
    (hk : lr.ops[k]? = some op₀) (hexact : new.Exact) (hdata : new.data = op₀.data ++ moved) :
    ReceivesInv (lr.resume ReceiveOperation.done k new) ∧
      received (lr.resume ReceiveOperation.done k new) = received lr ++ moved := by
  have hwaits : op₀.done = false := by
    obtain ⟨op, hop, hnot⟩ := (h.tidy.mem_iff k).mp (hp ▸ mem_cons_self)
    rw [hk] at hop
    cases hop
    exact hnot
  refine ⟨⟨h.tidy.resume hp hk, fun op hop => ?_, fun i j op op' hij hi hj hnot => ?_⟩, ?_⟩
  · rcases mem_or_eq_of_mem_set hop with hold | rfl
    · exact h.exact op hold
    · exact hexact
  · simp only [Lane.resume, Lane.getElem?_set_of_get hk] at hi hj
    by_cases hik : i = k
    · -- behind the front operation
      rw [if_neg (by omega)] at hj
      exact h.untouched k j op₀ op' (hik ▸ hij) hk hj hwaits
    · rw [if_neg hik] at hi
      by_cases hjk : j = k
      · -- before it everything is done
        have hdone := h.tidy.done_before hp (hjk ▸ hij) hi
        rw [hnot] at hdone
        cases hdone
      · rw [if_neg hjk] at hj
        exact h.untouched i j op op' hij hi hj hnot
  · exact Lane.flatMap_set_last hk (fun j hj op' hop' => h.untouched k j op₀ op' hj hk hop' hwaits)
      hdata

theorem ReceivesInv.done_before (h : ReceivesInv lr) {j : Nat} (hjk : j < k)
    (hj : lr.ops[j]? = some op₀) (hk : lr.ops[k]? = some new) (hdone : new.done) : op₀.done := by
  cases hnot : op₀.done with
  | true => rfl
  | false =>
    have hempty := h.untouched j k op₀ new hjk hj hk hnot
    have hexact := h.exact new (mem_of_getElem? hk)
    have hlen := hexact.done_iff.mp hdone
    have hpos := hexact.pos
    rw [hempty, length_nil] at hlen
    omega

theorem ReceivesInv.offset_eq (h : ReceivesInv lr) (hk : lr.ops[k]? = some new) (hdone : new.done) :
    offset lr k = ((lr.ops.take k).flatMap ReceiveOperation.data).length := by
  rw [offset, length_flatMap]
  refine congrArg List.sum (map_congr_left fun op hop => ?_)
  obtain ⟨j, hj⟩ := mem_iff_getElem?.mp hop
  have hjk : j < k := by
    have := (List.getElem?_eq_some_iff.mp hj).1
    rw [length_take] at this
    omega
  rw [getElem?_take_of_lt hjk] at hj
  exact ((h.exact op (mem_of_getElem? hj)).done_iff.mp (h.done_before hjk hj hk hdone)).symm

/-! ## 3. All sockets -/

/-- What a loop has still to go through, against the queue of its socket. -/
def Loop.Follows (w : World ι) : Loop ι → Prop
  | .onSend i operations => (w.sockets i).sends.Copy operations
  | .onReceive i operations => (w.sockets i).receives.Copy operations
  | .unblock _ => True

/-- Two operations that wait hold different packets, or an empty one. -/
def World.Apart (w : World ι) : Prop :=
  ∀ i k j l packet, w.Waits i k packet → w.Waits j l packet →
    (j = i ∧ l = k) ∨ w.packets packet = []

structure World.Inv (peer : ι → ι) (w : World ι) : Prop where
  opened : ∀ i, (w.sockets i).isClosed = false
  sends : ∀ i, SendsInv (w.transfers i)
  receives : ∀ i, ReceivesInv (w.sockets i).receives
  flow : ∀ i, received (w.sockets (peer i)).receives ++ (w.media i).content ++
    unsent (w.transfers i) = given (w.transfers i)
  loops : ∀ loop ∈ w.loops, loop.Follows w
  apart : w.Apart

variable {peer : ι → ι} {w w' : World ι}

theorem World.Inv.fifo (h : w.Inv peer) (i : ι) : Fifo peer w i where
  flow := h.flow i
  cut k op hk hdone := by
    have hrec := h.receives (peer i)
    have hlen := (hrec.exact op (mem_of_getElem? hk)).done_iff.mp hdone
    refine ⟨hlen, ?_⟩
    obtain ⟨hlt, rfl⟩ := List.getElem?_eq_some_iff.mp hk
    have hsplit : received (w.sockets (peer i)).receives =
        ((w.sockets (peer i)).receives.ops.take k).flatMap ReceiveOperation.data ++
          ((w.sockets (peer i)).receives.ops[k].data ++
            ((w.sockets (peer i)).receives.ops.drop (k + 1)).flatMap ReceiveOperation.data) := by
      conv_lhs => rw [received, ← take_append_drop k (w.sockets (peer i)).receives.ops,
        drop_eq_getElem_cons hlt]
      rw [flatMap_append, flatMap_cons]
    rw [← h.flow i, hsplit, hrec.offset_eq hk hdone, ← hlen]
    simp only [append_assoc, drop_left, take_left]

theorem World.Inv.tidy (h : w.Inv peer) (i : ι) :
    (w.sockets i).sends.Tidy SendOperation.done := (h.sends i).tidy.of_map fun _ => rfl

theorem Loop.Follows.mono {loop : Loop ι} (h : loop.Follows w)
    (hsends : ∀ i ids, (w.sockets i).sends.Copy ids → (w'.sockets i).sends.Copy ids)
    (hrecvs : ∀ i ids, (w.sockets i).receives.Copy ids → (w'.sockets i).receives.Copy ids) :
    loop.Follows w' := by
  cases loop with
  | onSend i operations => exact hsends i operations h
  | onReceive i operations => exact hrecvs i operations h
  | unblock i => trivial

variable [DecidableEq ι]

theorem update_field {β : Type*} (f : CoroutineSocket → β) {sockets : ι → CoroutineSocket} {i : ι}
    (hs : f s = f (sockets i)) (j : ι) : f (Function.update sockets i s j) = f (sockets j) := by
  rw [update_apply]
  split
  · next hj => rw [hs, hj]
  · rfl

omit [DecidableEq ι] in
theorem World.Inv.withLoops (h : w.Inv peer) {loops : List (Loop ι)}
    (hloops : ∀ loop ∈ loops, loop.Follows w) : World.Inv peer { w with loops := loops } where
  opened := h.opened
  sends := h.sends
  receives := h.receives
  flow := h.flow
  loops loop hloop := (hloops loop hloop).mono (fun _ _ => id) fun _ _ => id
  apart := h.apart

section

variable (hsends : ∀ j, (w'.sockets j).sends = (w.sockets j).sends) (hpackets : w'.packets = w.packets)
include hsends hpackets

omit [DecidableEq ι] in
theorem transfers_congr (j : ι) : w'.transfers j = w.transfers j := by
  rw [World.transfers, hsends, hpackets]
  rfl

omit [DecidableEq ι] in
theorem World.Inv.apart_congr (h : w.Inv peer) : w'.Apart := by
  have hwaits : ∀ j l q, w'.Waits j l q → w.Waits j l q := fun j l q hq => by
    rw [World.Waits, hsends] at hq
    exact hq
  rw [World.Apart, hpackets]
  exact fun i k j l q hq hq' => h.apart i k j l q (hwaits i k q hq) (hwaits j l q hq')

end

/-! ### The packet of one send

Of the operations that wait for packet `p`, all but operation `k` of socket `i`
hold an empty one. -/

section

variable {i : ι} {k p : Nat} {left : Packet}

omit [DecidableEq ι] in
theorem transfer_new {packets : Nat → Packet} {bytes : Packet} {done : Bool}
    (hdone : done → left = []) :
    SendOperation.transfer (Function.update packets p left) ⟨p, bytes, done⟩ =
      ⟨bytes, left, done⟩ := by
  cases done with
  | true => simp [SendOperation.transfer, hdone]
  | false => simp [SendOperation.transfer]

variable
  (halone : ∀ j l, w.Waits j l p → (j = i ∧ l = k) ∨ w.packets p = [])
  (hleft : w.packets p = [] → left = [])
include halone hleft

omit [DecidableEq ι] in
/-- What becomes of the packet leaves the other operations as they are. -/
theorem transfer_frame {j : ι} {l : Nat} {op : SendOperation}
    (hop : (w.sockets j).sends.ops[l]? = some op) (hne : ¬ (j = i ∧ l = k)) :
    op.transfer (Function.update w.packets p left) = op.transfer w.packets := by
  unfold SendOperation.transfer
  cases hdone : op.done with
  | true => rfl
  | false =>
    by_cases hp : op.packet = p
    · have hempty := (halone j l ⟨op, hop, hdone, hp⟩).resolve_left hne
      rw [hp, update_self, hleft hempty, hempty]
    · rw [update_of_ne hp]

omit [DecidableEq ι] in
theorem transfers_frame {j : ι} (hne : j ≠ i) :
    (w.sockets j).sends.map (SendOperation.transfer (Function.update w.packets p left)) =
      w.transfers j := by
  refine congrArg (Lane.mk · _) (map_congr_left fun op hop => ?_)
  obtain ⟨l, hl⟩ := mem_iff_getElem?.mp hop
  exact transfer_frame halone hleft hl fun h => hne h.1

omit [DecidableEq ι] in
theorem apart_frame (h : w.Inv peer) (hsub : ∀ j l q, w'.Waits j l q →
      w.Waits j l q ∨ (j = i ∧ l = k ∧ q = p))
    (hpackets : w'.packets = Function.update w.packets p left) : w'.Apart := by
  intro j l j' l' q hq hq'
  have hsame : w.packets q = [] → w'.packets q = [] := fun hempty => by
    rw [hpackets, update_apply]
    split
    · rename_i heq
      exact hleft (heq ▸ hempty)
    · exact hempty
  rcases hsub j l q hq with hold | ⟨rfl, rfl, rfl⟩ <;>
    rcases hsub j' l' _ hq' with hold' | ⟨rfl, rfl, hqp⟩
  · exact (h.apart j l j' l' q hold hold').imp_right hsame
  · subst hqp
    exact (halone j l hold).imp (fun heq => ⟨heq.1.symm, heq.2.symm⟩) hsame
  · exact (halone j' l' hold').imp_right hsame
  · exact .inl ⟨rfl, rfl⟩

end

/-- A change of the sends of socket `i` and of the packet that operation `k` holds. -/
theorem World.Inv.changeSends (h : w.Inv peer) {i : ι} {k p : Nat} {l : Lane SendOperation}
    {e : Evaluated Medium} (packet : Packet)
    (halone : ∀ j l, w.Waits j l p → (j = i ∧ l = k) ∨ w.packets p = [])
    (hleft : w.packets p = [] → e.packet = [])
    (hnew : ∀ j op, j ≠ k → l.ops[j]? = some op → (w.sockets i).sends.ops[j]? = some op)
    (hat : ∀ op, l.ops[k]? = some op → op.packet = p)
    (hl : SendsInv (l.map (SendOperation.transfer (Function.update w.packets p e.packet))))
    (hflow : e.medium.content ++
        unsent (l.map (SendOperation.transfer (Function.update w.packets p e.packet))) =
      (w.media i).content ++ unsent (w.transfers i) ++ packet)
    (hgiven : given (l.map (SendOperation.transfer (Function.update w.packets p e.packet))) =
      given (w.transfers i) ++ packet)
    (hcopy : ∀ ids, (w.sockets i).sends.Copy ids → l.Copy ids) :
    (w.afterSend i p l e).Inv peer := by
  have hrecvs : ∀ j, ((w.afterSend i p l e).sockets j).receives = (w.sockets j).receives :=
    update_field CoroutineSocket.receives rfl
  have hsends : ∀ j, ((w.afterSend i p l e).sockets j).sends =
      if j = i then l else (w.sockets j).sends := fun j => by
    simp only [World.afterSend, World.update, update_apply]
    split <;> rfl
  have htransfers : ∀ j, (w.afterSend i p l e).transfers j =
      if j = i then l.map (SendOperation.transfer (Function.update w.packets p e.packet))
      else w.transfers j := fun j => by
    rw [World.transfers, hsends]
    split
    · rfl
    · rename_i hj
      exact transfers_frame halone hleft hj
  refine ⟨fun j => ?_, fun j => ?_, fun j => hrecvs j ▸ h.receives j, fun j => ?_,
    fun loop hloop => (h.loops loop hloop).mono (fun j ids hids => ?_) fun j ids hids => ?_,
    apart_frame halone hleft h (fun j a q hq => ?_) rfl⟩
  · rw [← h.opened j]
    refine update_field isClosed ?_ j
    rfl
  · rw [htransfers]
    split
    · exact hl
    · exact h.sends j
  · rw [hrecvs, htransfers]
    simp only [World.afterSend, World.update, update_apply]
    split
    · rename_i hj
      rw [hj, append_assoc, hflow, hgiven, ← h.flow i]
      simp only [append_assoc]
    · exact h.flow j
  · rw [hsends]
    split
    · rename_i hj
      exact hcopy ids (hj ▸ hids)
    · exact hids
  · rw [hrecvs]
    exact hids
  · obtain ⟨op, hop, hwaits, rfl⟩ := hq
    rw [hsends] at hop
    split at hop
    · rename_i hj
      subst hj
      by_cases ha : a = k
      · subst ha
        exact .inr ⟨rfl, rfl, hat op hop⟩
      · exact .inl ⟨op, hnew a op ha hop, hwaits, rfl⟩
    · exact .inl ⟨op, hop, hwaits, rfl⟩

/-- A change of the receives of socket `i` and of what it reads from. -/
theorem World.Inv.changeReceives (hpeer : Function.Involutive peer) (h : w.Inv peer) {i : ι}
    {l : Lane ReceiveOperation} (hl : ReceivesInv l) (hflow : received l ++ m.content =
      received (w.sockets i).receives ++ (w.media (peer i)).content)
    (hcopy : ∀ ids, (w.sockets i).receives.Copy ids → l.Copy ids) :
    (w.update i { w.sockets i with receives := l } (peer i) m).Inv peer := by
  have hsends : ∀ j, ((w.update i { w.sockets i with receives := l } (peer i) m).sockets j).sends =
      (w.sockets j).sends := update_field CoroutineSocket.sends rfl
  have hrecvs : ∀ j,
      ((w.update i { w.sockets i with receives := l } (peer i) m).sockets j).receives =
        if j = i then l else (w.sockets j).receives := fun j => by
    simp only [World.update, update_apply]
    split <;> rfl
  have htransfers := transfers_congr hsends rfl
  refine ⟨fun j => ?_, fun j => htransfers j ▸ h.sends j, fun j => ?_, fun j => ?_,
    fun loop hloop => (h.loops loop hloop).mono (fun j ids hids => ?_) fun j ids hids => ?_,
    h.apart_congr hsends rfl⟩
  · rw [← h.opened j]
    refine update_field isClosed ?_ j
    rfl
  · rw [hrecvs]
    split
    · exact hl
    · exact h.receives j
  · rw [hrecvs, htransfers]
    simp only [World.update, update_apply, ← hpeer.eq_iff]
    split
    · rename_i hj
      have hold := h.flow j
      rw [hj] at hold
      rw [← hpeer j, hj] at hold ⊢
      rw [hflow, hold]
    · exact h.flow j
  · rw [hsends]
    exact hids
  · rw [hrecvs]
    split
    · rename_i hj
      exact hcopy ids (hj ▸ hids)
    · exact hids

omit [DecidableEq ι] in
theorem World.Inv.evaluateSend_spec (h : w.Inv peer) (i : ι) (packet : Nat) :
    ∃ moved, Sent ((w.sockets i).isBlocked ∨ ¬ (w.media i).Writable) (w.packets packet)
      (w.media i).content (w.evaluateSend i packet).done (w.evaluateSend i packet).packet
      (w.evaluateSend i packet).medium.content moved := by
  obtain ⟨moved, hsent⟩ :=
    (w.media i).sendCondition_spec (w.sockets i).isBlocked (w.packets packet)
  rw [← h.opened i] at hsent
  exact ⟨moved, hsent⟩

theorem World.Inv.send (h : w.Inv peer) {i : ι} {packet : Nat}
    (hturn : InTurn peer w (.send i packet)) : (w.send i packet).Inv peer := by
  obtain ⟨moved, hsent⟩ := h.evaluateSend_spec i packet
  have halone : ∀ j l, w.Waits j l packet →
      (j = i ∧ l = (w.sockets i).sends.ops.length) ∨ w.packets packet = [] := fun j l hwaits =>
    .inr (hturn.resolve_right fun h => h.1 j l hwaits)
  have hleft : w.packets packet = [] → (w.evaluateSend i packet).packet = [] := fun hempty =>
    (append_eq_nil_iff.mp (hsent.packet_eq.symm.trans hempty)).2
  have hview : ((w.sockets i).sends.issue SendOperation.done
        ⟨packet, w.packets packet, (w.evaluateSend i packet).done⟩).map (SendOperation.transfer
          (Function.update w.packets packet (w.evaluateSend i packet).packet)) =
      (w.transfers i).issue Transfer.done
        ⟨w.packets packet, (w.evaluateSend i packet).packet, (w.evaluateSend i packet).done⟩ := by
    rw [← transfer_new hsent.rest_eq]
    exact Lane.map_issue rfl fun k op hop => transfer_frame halone hleft hop fun heq =>
      (List.getElem?_eq_some_iff.mp hop).1.ne heq.2
  obtain ⟨hinv, hflow, hgiven⟩ := (h.sends i).issue hsent (hturn.imp_right And.right)
  rw [World.send, if_neg (Bool.eq_false_iff.mp (h.opened i))]
  refine h.changeSends (w.packets packet) halone hleft (fun j op hj hop => ?_) (fun op hop => ?_)
    (hview ▸ hinv) (hview ▸ hflow) (hview ▸ hgiven) fun ids hids => hids.issue _
  · have hlt := (List.getElem?_eq_some_iff.mp hop).1
    simp only [Lane.issue, length_append, length_singleton] at hlt
    rwa [Lane.issue, getElem?_append_left (by omega)] at hop
  · obtain rfl : _ = op := by simpa [Lane.issue] using hop
    rfl

theorem World.Inv.receive (hpeer : Function.Involutive peer) (h : w.Inv peer) {i : ι} {size : Nat}
    (hturn : InTurn peer w (.receive i size)) : (w.receive i (peer i) size).Inv peer := by
  obtain ⟨⟨hpos, hlt⟩, hturn⟩ := hturn
  obtain ⟨moved, hexact, hdata, hcontent, hmoved⟩ :=
    evaluateReceive_spec (h.opened i) (w.media (peer i)) ⟨size, [], false⟩ hpos hlt
  obtain ⟨hinv, hrecv⟩ := (h.receives i).issue hexact hturn fun hblocked => by
    rw [hdata, hmoved hblocked]
    rfl
  rw [World.receive, if_neg (Bool.eq_false_iff.mp (h.opened i))]
  refine h.changeReceives hpeer hinv ?_ fun ids hids => hids.issue _
  rw [hrecv, hdata, hcontent, append_assoc]
  rfl

theorem World.Inv.resumeSend (h : w.Inv peer) {i : ι} {k : Nat} {operations : List Nat}
    (hcopy : (w.sockets i).sends.Copy (k :: operations)) {done : Bool}
    (hstep : w.resumeSend i k = some (done, w')) :
    w'.Inv peer ∧ w'.loops = w.loops ∧ (done → (w'.sockets i).sends.Copy operations) := by
  obtain ⟨op, hq, hstep⟩ := Option.map_eq_some_iff.mp hstep
  obtain ⟨hk, hop, hwaits⟩ := (h.tidy i).of_queued hq
  obtain ⟨rest, hp⟩ := hcopy.inOrder.front hk
  rw [hwaits, if_neg Bool.false_ne_true] at hstep
  cases hstep
  obtain ⟨moved, hsent⟩ := h.evaluateSend_spec i op.packet
  have halone : ∀ j l, w.Waits j l op.packet → (j = i ∧ l = k) ∨ w.packets op.packet = [] :=
    fun j l => h.apart i k j l op.packet ⟨op, hop, hwaits, rfl⟩
  have hleft : w.packets op.packet = [] → (w.evaluateSend i op.packet).packet = [] :=
    fun hempty => (append_eq_nil_iff.mp (hsent.packet_eq.symm.trans hempty)).2
  have hview : ((w.sockets i).sends.resume SendOperation.done k
        ⟨op.packet, op.given, (w.evaluateSend i op.packet).done⟩).map (SendOperation.transfer
          (Function.update w.packets op.packet (w.evaluateSend i op.packet).packet)) =
      (w.transfers i).resume Transfer.done k
        ⟨op.given, (w.evaluateSend i op.packet).packet, (w.evaluateSend i op.packet).done⟩ := by
    rw [← transfer_new hsent.rest_eq]
    exact Lane.map_resume rfl fun j op' hj hop' =>
      transfer_frame halone hleft hop' fun heq => hj heq.2
  have hopk : (w.transfers i).ops[k]? = some ⟨op.given, w.packets op.packet, false⟩ := by
    simp [World.transfers, Lane.map, hop, SendOperation.transfer, hwaits]
  obtain ⟨hinv, hflow, hgiven⟩ := (h.sends i).resume hp hopk hsent
  refine ⟨h.changeSends [] halone hleft (fun j op' hj hop' => ?_) (fun op' hop' => ?_)
    (hview ▸ hinv) ?_ ?_ fun ids hids => hids.resume (h.tidy i) hp, rfl, fun hend => ?_⟩
  · rwa [Lane.resume, Lane.getElem?_set_of_get hop, if_neg hj] at hop'
  · rw [Lane.resume, Lane.getElem?_set_of_get hop, if_pos rfl] at hop'
    cases hop'
    rfl
  · rw [append_nil]
    exact hview ▸ hflow
  · rw [append_nil]
    exact hview ▸ hgiven
  · simp only [World.afterSend, World.update, update_self]
    exact hcopy.next (h.tidy i) hp hend

theorem World.Inv.resumeReceive (hpeer : Function.Involutive peer) (h : w.Inv peer) {i : ι}
    {k : Nat} {operations : List Nat} (hcopy : (w.sockets i).receives.Copy (k :: operations))
    {done : Bool} (hstep : w.resumeReceive i (peer i) k = some (done, w')) :
    w'.Inv peer ∧ w'.loops = w.loops ∧ (done → (w'.sockets i).receives.Copy operations) := by
  have htidy := (h.receives i).tidy
  obtain ⟨op, hq, hstep⟩ := Option.map_eq_some_iff.mp hstep
  obtain ⟨hk, hop, hwaits⟩ := htidy.of_queued hq
  obtain ⟨rest, hp⟩ := hcopy.inOrder.front hk
  rw [hwaits, if_neg Bool.false_ne_true] at hstep
  cases hstep
  have hexact := (h.receives i).exact op (mem_of_getElem? hop)
  have hmore : op.data.length < op.size := by
    refine lt_of_le_of_ne hexact.length_le fun heq => ?_
    rw [hexact.done_iff.mpr heq] at hwaits
    cases hwaits
  obtain ⟨moved, hexact', hdata, hcontent, -⟩ :=
    evaluateReceive_spec (h.opened i) (w.media (peer i)) _ hmore hexact.lt
  obtain ⟨hinv, hrecv⟩ := (h.receives i).resume hp hop hexact' hdata
  refine ⟨h.changeReceives hpeer hinv ?_ fun ids hids => hids.resume htidy hp, rfl,
    fun hend => ?_⟩
  · rw [hrecv, hcontent, append_assoc]
  · simp only [World.update, update_self]
    exact hcopy.next htidy hp hend

omit [DecidableEq ι] in
theorem World.Inv.afterResume (h : w.Inv peer) {done : Bool} {loop next : Loop ι}
    {loops : List (Loop ι)} (hloops : w.loops = loop :: loops) (hnext : done → next.Follows w) :
    World.Inv peer { w with loops := if done then next :: loops else loops } := by
  have hkept : ∀ l ∈ loops, l.Follows w := fun l hl =>
    h.loops l (hloops ▸ mem_cons_of_mem _ hl)
  refine h.withLoops fun l hl => ?_
  cases done with
  | false => exact hkept l hl
  | true =>
    cases hl with
    | head => exact hnext rfl
    | tail _ hl => exact hkept l hl

theorem World.Inv.resume (hpeer : Function.Involutive peer) (h : w.Inv peer)
    (hstep : w.resume peer = some w') : w'.Inv peer := by
  obtain ⟨sockets, media, packets, loops⟩ := w
  have hloops := h.loops
  cases loops with
  | nil => cases hstep
  | cons loop loops =>
    have hrest : ∀ l ∈ loops, l.Follows _ := fun l hl => hloops l (mem_cons_of_mem _ hl)
    have htop := hloops loop mem_cons_self
    cases loop with
    | unblock i =>
      cases hstep
      refine h.withLoops fun l hl => ?_
      cases hl with
      | head => exact (h.receives i).tidy.copy
      | tail _ hl => exact hrest l hl
    | onSend i operations =>
      cases operations with
      | nil =>
        cases hstep
        exact h.withLoops hrest
      | cons k operations =>
        obtain ⟨⟨done, w''⟩, hk, rfl⟩ := Option.map_eq_some_iff.mp hstep
        obtain ⟨hinv, hsame, hnext⟩ := h.resumeSend htop hk
        exact hinv.afterResume hsame hnext
    | onReceive i operations =>
      cases operations with
      | nil =>
        cases hstep
        exact h.withLoops hrest
      | cons k operations =>
        obtain ⟨⟨done, w''⟩, hk, rfl⟩ := Option.map_eq_some_iff.mp hstep
        obtain ⟨hinv, hsame, hnext⟩ := h.resumeReceive hpeer htop hk
        exact hinv.afterResume hsame hnext

theorem World.Inv.setBlocked (h : w.Inv peer) (i : ι) (blocked : Bool) :
    World.Inv peer { w with
      sockets := Function.update w.sockets i { w.sockets i with isBlocked := blocked } } := by
  have hsends : ∀ j,
      (Function.update w.sockets i { w.sockets i with isBlocked := blocked } j).sends =
        (w.sockets j).sends := update_field CoroutineSocket.sends rfl
  have hrecvs : ∀ j,
      (Function.update w.sockets i { w.sockets i with isBlocked := blocked } j).receives =
        (w.sockets j).receives := update_field CoroutineSocket.receives rfl
  have htransfers : ∀ j, World.transfers { w with
      sockets := Function.update w.sockets i { w.sockets i with isBlocked := blocked } } j =
        w.transfers j := transfers_congr hsends rfl
  refine ⟨fun j => ?_, fun j => htransfers j ▸ h.sends j, fun j => hrecvs j ▸ h.receives j,
    fun j => ?_,
    fun loop hloop => (h.loops loop hloop).mono (fun j ids hids => ?_) fun j ids hids => ?_,
    h.apart_congr hsends rfl⟩
  · rw [← h.opened j]
    refine update_field isClosed ?_ j
    rfl
  · rw [htransfers, hrecvs]
    exact h.flow j
  · rw [hsends]
    exact hids
  · rw [hrecvs]
    exact hids

/-- What is below a socket may change as long as its content does not. -/
theorem World.Inv.setMedium (h : w.Inv peer) {i : ι} (hm : m.content = (w.media i).content) :
    World.Inv peer { w with media := Function.update w.media i m } := by
  refine ⟨h.opened, h.sends, h.receives, fun j => ?_,
    fun loop hloop => (h.loops loop hloop).mono (fun _ _ => id) fun _ _ => id, h.apart⟩
  simp only [update_apply]
  split
  · rename_i hj
    rw [hj, hm]
    exact h.flow i
  · exact h.flow j

omit [DecidableEq ι] in
/-- No operation waits for a packet that is written. -/
theorem World.Inv.write (h : w.Inv peer) {packet : Nat} {bytes : Packet}
    (hturn : ∀ i k, ¬ w.Waits i k packet) :
    World.Inv peer { w with packets := Function.update w.packets packet bytes } := by
  have hview : ∀ j, World.transfers { w with packets := Function.update w.packets packet bytes } j =
      w.transfers j := fun j => by
    refine congrArg (Lane.mk · _) (map_congr_left fun op hop => ?_)
    obtain ⟨k, hk⟩ := mem_iff_getElem?.mp hop
    unfold SendOperation.transfer
    cases hdone : op.done with
    | true => rfl
    | false => simp [update_of_ne fun heq => hturn j k ⟨op, hk, hdone, heq⟩]
  refine ⟨h.opened, fun j => hview j ▸ h.sends j, h.receives, fun j => hview j ▸ h.flow j,
    fun loop hloop => (h.loops loop hloop).mono (fun _ _ => id) fun _ _ => id,
    fun i k j l q hq hq' => (h.apart i k j l q hq hq').imp_right fun hempty => ?_⟩
  have hne : q ≠ packet := fun heq => hturn i k (by rwa [← heq])
  exact (update_of_ne hne _ _).trans hempty

/-! ## 4. Runs -/

theorem World.Inv.step (hpeer : Function.Involutive peer) (h : w.Inv peer)
    (hstep : StepInTurn peer w w') : w'.Inv peer := by
  obtain ⟨a, hturn, ha⟩ := hstep
  have hevent : ∀ {w''}, World.Inv peer w'' → w.event w'' = some w' → w'.Inv peer := fun hinv he => by
    unfold World.event at he
    split at he
    · cases he
      exact hinv
    · cases he
  cases a with
  | write packet bytes =>
    cases ha
    exact h.write hturn
  | send i packet =>
    cases ha
    exact h.send hturn
  | receive i size =>
    cases ha
    exact h.receive hpeer hturn
  | block i =>
    cases ha
    exact h.setBlocked i true
  | unblock i =>
    cases ha
    have hinv := h.setBlocked i false
    refine hinv.withLoops fun loop hloop => ?_
    cases hloop with
    | head =>
      simp only [Loop.Follows, update_self]
      exact (h.tidy i).copy
    | tail _ hloop =>
      cases hloop with
      | head => trivial
      | tail _ hloop => exact hinv.loops loop hloop
  | resume => exact h.resume hpeer ha
  | onSend i =>
    refine hevent (h.withLoops fun loop hloop => ?_) ha
    obtain rfl := mem_singleton.mp hloop
    exact (h.tidy i).copy
  | onReceive i =>
    refine hevent (h.withLoops fun loop hloop => ?_) ha
    obtain rfl := mem_singleton.mp hloop
    exact (h.receives i).tidy.copy
  | arrive i k => exact hevent (h.setMedium (Medium.content_arrive k _)) ha
  | acked i k => exact hevent (h.setMedium (Medium.content_acked k _)) ha

omit [DecidableEq ι] in
theorem World.Inv.start {media : ι → Medium} {packets : Nat → Packet}
    (hmedia : ∀ i, (media i).content = []) :
    (World.start media packets).Inv peer where
  opened _ := rfl
  sends _ := ⟨Lane.tidy_empty, nofun⟩
  receives _ := ⟨Lane.tidy_empty, nofun, nofun⟩
  flow i := by
    simp only [World.start, hmedia]
    rfl
  loops := nofun
  apart _ _ _ _ _ hwaits := by
    obtain ⟨op, hop, -⟩ := hwaits
    cases hop

/-- A loopback socket that has not been used. -/
def selfSocket (cacheLimit : Nat) (packets : Nat → Packet) : World Unit :=
  World.start (fun _ => .loopback ⟨[], cacheLimit, Nat.zero_le _⟩) packets

/-- A receive waits; its packet comes, and before `onReceive` runs there is a second
receive, which takes the first byte. -/
def overtaking : List (Action Unit) :=
  [.receive () 2, .send () 0, .receive () 1, .onReceive (), .resume]

/-- A packet that is sent again while a send waits with it arrives once. -/
example : ∃ w, [.block (), .send () 0, .send () 0, .unblock (), .resume, .resume].foldlM (step id)
      (selfSocket 212992 fun _ => [1, 2]) = some w ∧
    (w.media ()).content = [1, 2] ∧ given (w.transfers ()) = [1, 2, 1, 2] :=
  ⟨_, rfl, by decide⟩

end MoeJit.Coroutine
