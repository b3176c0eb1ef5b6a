import MoeJit.Mpi.Protocol

/-!
# Framing of objects

One coroutine writes a list of messages to a connection, another reads objects of
the same types at the other end, and the bytes arrive in pieces of any size.

`framed_iff`: the reads return what was written, each from its own bytes, in every
order of steps if and only if no receive asks for 0 bytes, which to a socket means
whatever is there, and none of `2 ^ 32` bytes or more is the last to get a byte.
-/

namespace MoeJit.Mpi

open Bytes Words Coroutine List

/-! ## 1. A writer and a reader -/

/-- The two ends of a connection. -/
structure Link where
  conn : Connection
  /-- what is left of the packet being sent, and the packets after it -/
  sending : List Packet
  /-- the read that runs, and those after it -/
  reading : List (Reader Result)
  /-- the data of the receive that the reader waits for -/
  data : Packet := []
  /-- what the read that runs has taken -/
  taken : Packet := []
  /-- the reads that have returned, with what they took -/
  returned : List (Result × Packet) := []

/-- The connection takes what it can of the packet being sent. -/
def Link.send (s : Link) : Link :=
  match s.sending with
  | [] => s
  | packet :: packets =>
    let e := s.conn.sendCondition false false packet
    { s with conn := e.medium, sending := if e.done then packets else e.packet :: packets }

/-- The reader goes on: a read returns, or a receive gets what the connection has. -/
def Link.resume (s : Link) : Link :=
  match s.reading with
  | [] => s
  | .done r :: reads =>
    { s with reading := reads, taken := [], returned := s.returned ++ [(r, s.taken)] }
  | .receive size next :: reads =>
    let e := s.conn.receiveCondition false false size s.data
    if e.done then
      { s with
        conn := e.medium
        reading := next e.packet :: reads
        data := []
        taken := s.taken ++ e.packet }
    else { s with conn := e.medium, data := e.packet }

inductive LinkAction
  | send
  | arrive (k : Nat)
  | acked (k : Nat)
  | resume

def Link.step (s : Link) : LinkAction → Link
  | .send => s.send
  | .arrive k => { s with conn := s.conn.arrive k }
  | .acked k => { s with conn := s.conn.acked k }
  | .resume => s.resume

/-- A connection that has not been used, with a buffer of the given size. -/
def newConnection (maxBuffer : Nat) : Connection :=
  ⟨maxBuffer, 0, [], [], le_rfl, Nat.zero_le _⟩

/-- Before the first step. -/
def Link.start (maxBuffer : Nat) (messages : List Message) : Link where
  conn := newConnection maxBuffer
  sending := messages.flatMap Message.write
  reading := messages.map Message.read

/-- A run. -/
def Link.run (s : Link) (actions : List LinkAction) : Link := actions.foldl Link.step s

/-! ## 2. Statement -/

/-- What the read of a message is to return, and the bytes it is to take. -/
def Message.outcome (m : Message) : Result × Packet := (m.result, m.write.flatten)

/-- The bytes of the messages are framed: in every run the reads that have returned have
the values and the bytes of their messages, and once every byte has been sent and
has arrived the other reads return as well and leave nothing behind. -/
structure Framed (messages : List Message) : Prop where
  exact : ∀ maxBuffer actions,
    ((Link.start maxBuffer messages).run actions).returned <+: messages.map Message.outcome
  complete : ∀ maxBuffer actions,
    ((Link.start maxBuffer messages).run actions).sending = [] →
    ((Link.start maxBuffer messages).run actions).conn.wire = [] →
    ∃ n, let s := Link.resume^[n] ((Link.start maxBuffer messages).run actions)
      s.reading = [] ∧ s.returned = messages.map Message.outcome ∧ s.conn.rxBuffer = []

/-- The sizes that the receives of a message ask for. -/
def Message.sizes (m : Message) : List Nat := m.format.map Prod.fst

/-- No receive asks for 0 bytes, and one of `2 ^ 32` bytes or more is followed by
another byte. -/
def Delimited : List Nat → Prop
  | [] => True
  | size :: sizes => size ≠ 0 ∧ (2 ^ 32 ≤ size → (sizes.map u32).sum ≠ 0) ∧ Delimited sizes

/-! ## 3. Chunks -/

/-- The packets of chunks as one stream. -/
def bytes (cs : List Chunk) : Packet := cs.flatMap Prod.snd

@[simp] theorem bytes_nil : bytes [] = [] := rfl

@[simp] theorem bytes_cons (c : Chunk) (cs : List Chunk) : bytes (c :: cs) = c.2 ++ bytes cs := rfl

theorem bytes_append (cs cs' : List Chunk) : bytes (cs ++ cs') = bytes cs ++ bytes cs' :=
  flatMap_append

theorem bytes_format (m : Message) : bytes m.format = m.write.flatten := by
  rw [← m.packets_format, bytes, flatMap_def]

theorem length_bytes {cs : List Chunk} (h : ∀ c ∈ cs, Sized c) :
    (bytes cs).length = ((cs.map Prod.fst).map u32).sum := by
  induction cs with
  | nil => rfl
  | cons c cs ih =>
    rw [bytes_cons, length_append, h c mem_cons_self,
      ih fun c' hc' => h c' (mem_cons_of_mem _ hc'), map_cons, map_cons, sum_cons]

/-- The chunks of messages. -/
def formats (ms : List Message) : List Chunk := ms.flatMap Message.format

theorem bytes_formats (ms : List Message) :
    bytes (formats ms) = (ms.flatMap Message.write).flatten := by
  induction ms with
  | nil => rfl
  | cons m ms ih =>
    rw [formats, flatMap_cons, bytes_append, bytes_format, flatMap_cons, flatten_append, ← ih]
    rfl

theorem sized_formats (ms : List Message) : ∀ c ∈ formats ms, Sized c := fun c hc => by
  obtain ⟨m, -, hcm⟩ := mem_flatMap.mp hc
  exact m.sized_format c hcm

/-- The chunks of the first of messages. -/
def headFormat : List Message → List Chunk
  | [] => []
  | m :: _ => m.format

theorem formats_eq (ms : List Message) : formats ms = headFormat ms ++ formats ms.tail := by
  cases ms <;> rfl

theorem sized_headFormat (ms : List Message) : ∀ c ∈ headFormat ms, Sized c := by
  cases ms with
  | nil => nofun
  | cons m ms => exact m.sized_format

/-! ## 4. The reader between two bytes -/

/-- The reads still to come: of the first message in `ms` the chunks `cs`. -/
def ReadsFor (s : Link) (cs : List Chunk) : List Message → Prop
  | [] => s.reading = [] ∧ cs = []
  | m :: ms => s.taken ++ bytes cs = m.write.flatten ∧
    ∃ r, s.reading = r :: ms.map Message.read ∧ Follows r cs m.result

/-- The data of a receive that is not done is less than its chunk. -/
def DataOf (data : Packet) : List Chunk → Prop
  | [] => data = []
  | c :: _ => data.length ≤ c.2.length ∧ (c.1 ≠ 0 → c.1 < 2 ^ 32 → data.length < c.1)

/-- The reader is within the first message of `ms`, with the chunks `cs` of it to come. -/
structure Link.Inv (messages ms : List Message) (cs : List Chunk) (s : Link) : Prop where
  returned : ∃ before, messages = before ++ ms ∧ s.returned = before.map Message.outcome
  reads : ReadsFor s cs ms
  stream : s.data ++ (s.conn.rxBuffer ++ s.conn.wire ++ s.sending.flatten) =
    bytes cs ++ bytes (formats ms.tail)
  data : DataOf s.data cs
  sized : ∀ c ∈ cs, Sized c

variable {messages ms : List Message} {cs : List Chunk} {s : Link}

theorem dataOf_nil (cs : List Chunk) : DataOf [] cs := by
  cases cs with
  | nil => rfl
  | cons c cs => exact ⟨Nat.zero_le _, fun hne _ => Nat.pos_of_ne_zero hne⟩

theorem Link.Inv.start (maxBuffer : Nat) (messages : List Message) :
    (Link.start maxBuffer messages).Inv messages messages (headFormat messages) where
  returned := ⟨[], rfl, rfl⟩
  reads := by
    cases messages with
    | nil => exact ⟨rfl, rfl⟩
    | cons m ms => exact ⟨bytes_format m, m.read, rfl, m.follows_read⟩
  stream := by
    rw [← bytes_append, ← formats_eq, bytes_formats]
    rfl
  data := dataOf_nil _
  sized := sized_headFormat messages

/-- What the connection does by itself does not concern the reader. -/
theorem Link.Inv.transport {s' : Link} (h : s.Inv messages ms cs)
    (hreading : s'.reading = s.reading ∧ s'.taken = s.taken ∧ s'.returned = s.returned ∧
      s'.data = s.data)
    (hstream : s'.conn.rxBuffer ++ s'.conn.wire ++ s'.sending.flatten =
      s.conn.rxBuffer ++ s.conn.wire ++ s.sending.flatten) :
    s'.Inv messages ms cs := by
  obtain ⟨hreading, htaken, hreturned, hdata⟩ := hreading
  refine ⟨hreturned ▸ h.returned, ?_, by rw [hdata, hstream]; exact h.stream, hdata ▸ h.data, h.sized⟩
  have hreads := h.reads
  cases ms with
  | nil => exact ⟨hreading ▸ hreads.1, hreads.2⟩
  | cons m ms =>
    obtain ⟨hbytes, r, hr, hfollows⟩ := hreads
    exact ⟨htaken ▸ hbytes, r, hreading ▸ hr, hfollows⟩

theorem Link.Inv.send (h : s.Inv messages ms cs) : s.send.Inv messages ms cs := by
  obtain ⟨conn, sending, reading, data, taken, returned⟩ := s
  cases sending with
  | nil => exact h
  | cons packet packets =>
    refine h.transport ⟨rfl, rfl, rfl, rfl⟩ ?_
    obtain ⟨moved, hsent, hrx⟩ := conn.sendCondition_spec false packet
    have hleft : (Link.send ⟨conn, packet :: packets, reading, data, taken, returned⟩).sending.flatten =
        (conn.sendCondition false false packet).packet ++ packets.flatten := by
      simp only [Link.send]
      split
      · rename_i hdone
        rw [hsent.rest_eq hdone, nil_append]
      · rfl
    rw [hleft]
    simp only [Link.send, hrx, hsent.content_eq, append_assoc, flatten_cons]
    rw [← append_assoc moved, ← hsent.packet_eq]

theorem Link.Inv.arrive (h : s.Inv messages ms cs) (k : Nat) :
    (s.step (.arrive k)).Inv messages ms cs := by
  refine h.transport ⟨rfl, rfl, rfl, rfl⟩ ?_
  change s.conn.rxBuffer ++ s.conn.wire.take k ++ s.conn.wire.drop k ++ s.sending.flatten = _
  rw [append_assoc s.conn.rxBuffer, take_append_drop]

theorem Link.Inv.acked (h : s.Inv messages ms cs) (k : Nat) :
    (s.step (.acked k)).Inv messages ms cs :=
  h.transport ⟨rfl, rfl, rfl, rfl⟩ rfl

variable {reads : List (Reader Result)} {size : Nat} {next : Packet → Reader Result}

theorem Link.Inv.returns (h : s.Inv messages ms cs) {r : Result}
    (hreading : s.reading = .done r :: reads) :
    cs = [] ∧ ms ≠ [] ∧ s.resume.Inv messages ms.tail (headFormat ms.tail) := by
  have hreads := h.reads
  cases ms with
  | nil =>
    rw [hreads.1] at hreading
    cases hreading
  | cons m ms =>
    obtain ⟨hbytes, r', hr, hfollows⟩ := hreads
    rw [hreading] at hr
    cases hr
    generalize hm : m.result = result at hfollows
    cases hfollows
    have hstream := h.stream
    have hdata : s.data = [] := h.data
    obtain ⟨before, rfl, hbefore⟩ := h.returned
    have htaken : s.taken = m.write.flatten := by simpa using hbytes
    refine ⟨rfl, cons_ne_nil _ _, ?_⟩
    have hresume : s.resume = { s with
        reading := ms.map Message.read, taken := [], returned := s.returned ++ [(m.result, s.taken)] } := by
      simp only [Link.resume, hreading, hm]
    rw [hresume]
    refine ⟨⟨before ++ [m], by simp, ?_⟩, ?_, ?_, hdata ▸ dataOf_nil _, sized_headFormat _⟩
    · simp only [hbefore, htaken, map_append, map_cons, map_nil]
      rfl
    · cases ms with
      | nil => exact ⟨rfl, rfl⟩
      | cons m' ms => exact ⟨bytes_format m', m'.read, rfl, m'.follows_read⟩
    · rw [tail_cons, ← bytes_append, ← formats_eq]
      exact hstream

/-- A receive that asks for some bytes has the next ones of its own chunk, and is done
when it has them all, and another byte is there if it asks for `2 ^ 32` or more. -/
theorem Link.Inv.receives (h : s.Inv messages ms cs)
    (hreading : s.reading = .receive size next :: reads) (hsize : size ≠ 0) :
    ∃ packet cs' k, cs = (size, packet) :: cs' ∧ s.data.length + k = packet.length ∧
      if k ≤ s.conn.rxBuffer.length ∧ (size < 2 ^ 32 ∨ k < s.conn.rxBuffer.length) then
        s.resume.Inv messages ms cs' ∧ s.resume.data = [] ∧ s.resume.conn.wire = s.conn.wire ∧
          s.resume.sending = s.sending
      else s.resume.Inv messages ms cs ∧ s.resume.reading = s.reading ∧
        s.resume.conn.rxBuffer = s.conn.rxBuffer.drop k ∧ s.resume.conn.wire = s.conn.wire ∧
          s.resume.sending = s.sending := by
  have hreads := h.reads
  cases ms with
  | nil =>
    rw [hreads.1] at hreading
    cases hreading
  | cons m ms =>
    obtain ⟨hbytes, r', hr, hfollows⟩ := hreads
    rw [hreading] at hr
    cases hr
    generalize hm : m.result = result at hfollows
    cases hfollows with
    | @receive _ _ packet cs' _ hnext hzero =>
      have hsized : packet.length = u32 size := h.sized _ mem_cons_self
      obtain ⟨hle, hlt⟩ : s.data.length ≤ packet.length ∧
        (size ≠ 0 → size < 2 ^ 32 → s.data.length < size) := h.data
      have heval := s.conn.receiveCondition_eq (k := packet.length - s.data.length)
        (pos_of_ne_zero hsize) ((Nat.add_sub_cancel' hle).trans hsized) fun hsmall => by
          have hmore := hlt hsize hsmall
          rw [hsized, u32_of_lt hsmall]
          exact Nat.sub_pos_of_lt hmore
      refine ⟨packet, cs', packet.length - s.data.length, rfl, Nat.add_sub_cancel' hle, ?_⟩
      have hstream := h.stream
      simp only [bytes_cons, tail_cons] at hstream
      split
      case isTrue hdone =>
        obtain ⟨hdata, hrest⟩ : s.data ++ s.conn.rxBuffer.take (packet.length - s.data.length) =
            packet ∧ s.conn.rxBuffer.drop (packet.length - s.data.length) ++
              (s.conn.wire ++ s.sending.flatten) = bytes cs' ++ bytes (formats ms) := by
          refine append_inj ?_ ?_
          · rw [← append_assoc packet, ← hstream]
            conv_rhs => rw [← take_append_drop (packet.length - s.data.length) s.conn.rxBuffer]
            simp only [append_assoc]
          · rw [length_append, length_take, min_eq_left hdone.1]
            exact Nat.add_sub_cancel' hle
        have hresume : s.resume = { s with
            conn := { s.conn with rxBuffer := s.conn.rxBuffer.drop (packet.length - s.data.length) }
            reading := next packet :: ms.map Message.read
            data := []
            taken := s.taken ++ packet } := by
          simp only [Link.resume, hreading, heval, hdone, decide_true, if_true, and_self, hdata]
        rw [hresume]
        refine ⟨⟨h.returned, ⟨?_, _, rfl, hm ▸ hnext⟩, ?_, dataOf_nil _,
          fun c hc => h.sized c (mem_cons_of_mem _ hc)⟩, rfl, rfl, rfl⟩
        · rw [← hbytes, bytes_cons, append_assoc]
        · simpa only [nil_append, append_assoc, tail_cons] using hrest
      case isFalse hwait =>
        have hresume : s.resume = { s with
            conn := { s.conn with rxBuffer := s.conn.rxBuffer.drop (packet.length - s.data.length) }
            data := s.data ++ s.conn.rxBuffer.take (packet.length - s.data.length) } := by
          simp only [Link.resume, hreading, heval, hwait, decide_false, Bool.false_eq_true, if_false]
        rw [hresume]
        refine ⟨⟨h.returned, ⟨hbytes, _, hreading, hm ▸ .receive hnext hzero⟩, ?_, ⟨?_, fun _ hsmall => ?_⟩,
          h.sized⟩, rfl, rfl, rfl, rfl⟩
        · rw [tail_cons, bytes_cons, ← hstream]
          conv_rhs => rw [← take_append_drop (packet.length - s.data.length) s.conn.rxBuffer]
          simp only [append_assoc]
        · change (s.data ++ _).length ≤ packet.length
          rw [length_append, length_take]
          omega
        · have hfew : s.conn.rxBuffer.length < packet.length - s.data.length := by
            by_contra hge
            exact hwait ⟨not_lt.mp hge, .inl hsmall⟩
          rw [length_append, length_take]
          rw [hsized, u32_of_lt hsmall] at hfew ⊢
          omega

/-! ## 5. Delimited messages are framed -/

/-- The receives and reads still to come. -/
def toGo (ms : List Message) (cs : List Chunk) : Nat :=
  cs.length + ms.length + (formats ms.tail).length

/-- The sizes still to be asked for. -/
def sizesOf (ms : List Message) (cs : List Chunk) : List Nat :=
  (cs ++ formats ms.tail).map Prod.fst

theorem toGo_tail {ms : List Message} (h : ms ≠ []) :
    toGo ms.tail (headFormat ms.tail) < toGo ms [] := by
  cases ms with
  | nil => exact absurd rfl h
  | cons m ms =>
    have hlen : (headFormat ms).length + (formats ms.tail).length = (formats ms).length := by
      rw [formats_eq ms, length_append]
    simp only [toGo, tail_cons, length_cons, length_nil]
    omega

theorem sizesOf_tail (ms : List Message) : sizesOf ms.tail (headFormat ms.tail) = sizesOf ms [] := by
  rw [sizesOf, sizesOf, ← formats_eq, nil_append]

theorem length_rest {cs : List Chunk} (hcs : ∀ c ∈ cs, Sized c) (ms : List Message) :
    (bytes cs ++ bytes (formats ms.tail)).length = ((sizesOf ms cs).map u32).sum := by
  rw [← bytes_append, length_bytes, sizesOf]
  intro c hc
  rcases mem_append.mp hc with h | h
  · exact hcs c h
  · exact sized_formats _ c h

/-- The reader goes on; when every byte has arrived it gets further. -/
theorem Link.Inv.resume (h : s.Inv messages ms cs) (hd : Delimited (sizesOf ms cs)) :
    ∃ ms' cs', s.resume.Inv messages ms' cs' ∧ Delimited (sizesOf ms' cs') ∧
      s.resume.conn.wire = s.conn.wire ∧ s.resume.sending = s.sending ∧
      (s.conn.wire = [] → s.sending = [] → s.reading ≠ [] → toGo ms' cs' < toGo ms cs) := by
  cases hreading : s.reading with
  | nil =>
    have hsame : s.resume = s := by simp only [Link.resume, hreading]
    rw [hsame]
    exact ⟨ms, cs, h, hd, rfl, rfl, fun _ _ hne => absurd rfl hne⟩
  | cons r reads =>
    cases r with
    | done r =>
      obtain ⟨rfl, hne, hinv⟩ := h.returns hreading
      have hsame : s.resume.conn = s.conn ∧ s.resume.sending = s.sending := by
        simp only [Link.resume, hreading, and_self]
      exact ⟨ms.tail, _, hinv, sizesOf_tail ms ▸ hd, congrArg Connection.wire hsame.1, hsame.2,
        fun _ _ _ => toGo_tail hne⟩
    | receive size next =>
      have hpos : size ≠ 0 := by
        obtain ⟨m, ms, rfl⟩ : ∃ m ms', ms = m :: ms' := by
          cases ms with
          | nil => rw [h.reads.1] at hreading; cases hreading
          | cons m ms => exact ⟨m, ms, rfl⟩
        obtain ⟨-, r, hr, hfollows⟩ := h.reads
        rw [hreading] at hr
        cases hr
        cases hfollows
        exact hd.1
      obtain ⟨packet, cs', k, rfl, hk, hcase⟩ := h.receives hreading hpos
      split at hcase
      case isTrue hdone =>
        obtain ⟨hinv, -, hwire, hsending⟩ := hcase
        refine ⟨ms, cs', hinv, hd.2.2, hwire, hsending, fun _ _ _ => ?_⟩
        simp only [toGo, length_cons]
        omega
      case isFalse hwait =>
        obtain ⟨hinv, -, -, hwire, hsending⟩ := hcase
        refine ⟨ms, _, hinv, hd, hwire, hsending, fun hno hnone _ => absurd ?_ hwait⟩
        -- everything has arrived: the packet of the chunk, and a byte after it
        have hlen : s.data.length + s.conn.rxBuffer.length =
            packet.length + ((sizesOf ms cs').map u32).sum := by
          rw [← length_rest (fun c hc => h.sized c (mem_cons_of_mem _ hc)) ms,
            ← length_append, ← length_append]
          have hstream := congrArg List.length h.stream
          rw [hno, hnone] at hstream
          simpa only [append_nil, flatten_nil, bytes_cons, append_assoc] using hstream
        refine ⟨by omega, ?_⟩
        rcases lt_or_ge size (2 ^ 32) with hlt | hge
        · exact .inl hlt
        · have hmore : ((sizesOf ms cs').map u32).sum ≠ 0 := hd.2.1 hge
          exact .inr (by omega)

theorem Link.Inv.step (h : s.Inv messages ms cs) (hd : Delimited (sizesOf ms cs)) (a : LinkAction) :
    ∃ ms' cs', (s.step a).Inv messages ms' cs' ∧ Delimited (sizesOf ms' cs') := by
  cases a with
  | send => exact ⟨ms, cs, h.send, hd⟩
  | arrive k => exact ⟨ms, cs, h.arrive k, hd⟩
  | acked k => exact ⟨ms, cs, h.acked k, hd⟩
  | resume =>
    obtain ⟨ms', cs', hinv, hd', -⟩ := h.resume hd
    exact ⟨ms', cs', hinv, hd'⟩

theorem Link.Inv.run (h : s.Inv messages ms cs) (hd : Delimited (sizesOf ms cs))
    (actions : List LinkAction) :
    ∃ ms' cs', (s.run actions).Inv messages ms' cs' ∧ Delimited (sizesOf ms' cs') := by
  induction actions generalizing s ms cs with
  | nil => exact ⟨ms, cs, h, hd⟩
  | cons a actions ih =>
    obtain ⟨ms', cs', hinv, hd'⟩ := h.step hd a
    exact ih hinv hd'

/-- When the reader has no more reads, everything has been returned and taken. -/
theorem Link.Inv.finished (h : s.Inv messages ms cs) (hreading : s.reading = []) :
    s.returned = messages.map Message.outcome ∧ s.conn.rxBuffer = [] := by
  have hreads := h.reads
  cases ms with
  | nil =>
    obtain ⟨before, rfl, hbefore⟩ := h.returned
    have hstream := h.stream
    rw [hreads.2] at hstream
    refine ⟨by rw [hbefore, append_nil], ?_⟩
    have hempty := append_eq_nil_iff.mp hstream
    exact (append_eq_nil_iff.mp (append_eq_nil_iff.mp hempty.2).1).1
  | cons m ms =>
    obtain ⟨-, r, hr, -⟩ := hreads
    rw [hreading] at hr
    cases hr

theorem Link.Inv.finishes (h : s.Inv messages ms cs) (hd : Delimited (sizesOf ms cs))
    (hwire : s.conn.wire = []) (hsending : s.sending = []) :
    ∃ n, (Link.resume^[n] s).reading = [] ∧
      (Link.resume^[n] s).returned = messages.map Message.outcome ∧
      (Link.resume^[n] s).conn.rxBuffer = [] := by
  induction hn : toGo ms cs using Nat.strong_induction_on generalizing s ms cs with
  | _ n ih =>
    cases hreading : s.reading with
    | nil => exact ⟨0, hreading, h.finished hreading⟩
    | cons r reads =>
      obtain ⟨ms', cs', hinv, hd', hwire', hsending', hless⟩ := h.resume hd
      obtain ⟨k, hk⟩ := ih _ (hn ▸ hless hwire hsending (by rw [hreading]; exact cons_ne_nil _ _))
        hinv hd' (hwire'.trans hwire) (hsending'.trans hsending) rfl
      exact ⟨k + 1, hk⟩

theorem framed_of_delimited (hd : Delimited (messages.flatMap Message.sizes)) : Framed messages := by
  have hsizes : Delimited (sizesOf messages (headFormat messages)) := by
    rw [sizesOf, ← formats_eq, formats, map_flatMap]
    exact hd
  refine ⟨fun maxBuffer actions => ?_, fun maxBuffer actions hsending hwire => ?_⟩
  · obtain ⟨ms, cs, hinv, -⟩ := (Link.Inv.start maxBuffer messages).run hsizes actions
    obtain ⟨before, hbefore, hreturned⟩ := hinv.returned
    rw [hreturned, hbefore, map_append]
    exact prefix_append _ _
  · obtain ⟨ms, cs, hinv, hd'⟩ := (Link.Inv.start maxBuffer messages).run hsizes actions
    exact hinv.finishes hd' hwire hsending

/-! ## 6. Framed messages are delimited -/

theorem Link.resume_of_empty (hreading : s.reading = .receive size next :: reads)
    (hempty : s.conn.rxBuffer = []) : s.resume = s := by
  have heval : s.conn.receiveCondition false false size s.data = ⟨false, s.data, s.conn⟩ := by
    rw [Connection.receiveCondition]
    simp [Connection.getRxAvailable, hempty]
  simp only [Link.resume, hreading, heval, Bool.false_eq_true, if_false]
  rw [← hreading]

theorem Link.not_finished_of_empty (hreading : s.reading = .receive size next :: reads)
    (hempty : s.conn.rxBuffer = []) (n : Nat) : (Link.resume^[n] s).reading ≠ [] := by
  rw [Function.iterate_fixed (Link.resume_of_empty hreading hempty), hreading]
  exact cons_ne_nil _ _

theorem Link.returned_prefix (n : Nat) (s : Link) :
    s.returned <+: (Link.resume^[n] s).returned := by
  induction n generalizing s with
  | zero => exact prefix_rfl
  | succ n ih =>
    refine List.IsPrefix.trans ?_ (ih s.resume)
    unfold Link.resume
    split
    · exact prefix_rfl
    · exact prefix_append _ _
    · dsimp only
      split <;> exact prefix_rfl

/-- A receive that asks for 0 bytes takes all that is there, which is the end of the
reads that follow. -/
theorem Link.Inv.takes_all (h : s.Inv messages ms cs)
    (hreading : s.reading = .receive 0 next :: reads) (hdata : s.data = [])
    (hsome : s.conn.rxBuffer ≠ []) {n : Nat} (hend : (Link.resume^[n + 1] s).reading = [])
    (hall : (Link.resume^[n + 1] s).returned = messages.map Message.outcome) : False := by
  have heval : s.conn.receiveCondition false false 0 [] =
      ⟨true, s.conn.rxBuffer, { s.conn with rxBuffer := [] }⟩ := by
    have hpos : ¬ s.conn.rxBuffer.length ≤ 0 := fun hle =>
      hsome (length_eq_zero_iff.mp (Nat.le_zero.mp hle))
    have hrecv : s.conn.recv s.conn.rxBuffer.length =
        some (s.conn.rxBuffer, { s.conn with rxBuffer := [] }) := by
      simp [Connection.recv, hsome]
    rw [Connection.receiveCondition]
    simp only [Bool.false_eq_true, if_false, false_or, Connection.getRxAvailable, hpos]
    split
    · rename_i hnone
      rw [if_pos le_rfl, hrecv] at hnone
      cases hnone
    · rename_i hrec
      rw [if_pos le_rfl, hrecv] at hrec
      cases hrec
      rfl
  have hreads := h.reads
  cases ms with
  | nil =>
    rw [hreads.1] at hreading
    cases hreading
  | cons m ms =>
    obtain ⟨hbytes, r', hr, hfollows⟩ := hreads
    rw [hreading] at hr
    cases hr
    generalize hm : m.result = result at hfollows
    cases hfollows with
    | @receive _ _ packet cs' _ _ hzero =>
      have hfollows' := hzero rfl s.conn.rxBuffer
      have hresume : s.resume = { s with
          conn := { s.conn with rxBuffer := [] }
          reading := next s.conn.rxBuffer :: ms.map Message.read
          data := []
          taken := s.taken ++ s.conn.rxBuffer } := by
        simp only [Link.resume, hreading, hdata, heval, if_true]
      rw [Function.iterate_succ_apply, hresume] at hend hall
      generalize hnext : next s.conn.rxBuffer = r at hfollows'
      cases hfollows' with
      | receive _ _ =>
        -- a receive that is to get nothing
        exact Link.not_finished_of_empty (s := ⟨_, _, _, _, _, _⟩) (by rw [hnext]) rfl n hend
      | done =>
        -- the read returns with more than its bytes
        cases n with
        | zero => cases hend
        | succ n =>
          have hmore := Link.returned_prefix n (Link.resume
            ⟨{ s.conn with rxBuffer := [] }, s.sending, next s.conn.rxBuffer :: ms.map Message.read,
              [], s.taken ++ s.conn.rxBuffer, s.returned⟩)
          rw [← Function.iterate_succ_apply, hall] at hmore
          simp only [Link.resume, hnext] at hmore
          obtain ⟨before, rfl, hbefore⟩ := h.returned
          rw [hbefore, map_append, prefix_append_right_inj, map_cons, cons_prefix_cons] at hmore
          have htaken : s.taken ++ s.conn.rxBuffer = m.write.flatten := congrArg Prod.snd hmore.1
          rw [← hbytes, append_cancel_left_eq, bytes_cons, bytes_nil, append_nil] at htaken
          have hsized : packet.length = u32 0 := h.sized _ mem_cons_self
          exact hsome (htaken.trans (length_eq_zero_iff.mp hsized))

/-- When every byte is there, the reader comes to an end only if the sizes to come are
delimited. -/
theorem Link.Inv.delimited (h : s.Inv messages ms cs) (hdata : s.data = [])
    (hwire : s.conn.wire = []) (hsending : s.sending = []) {n : Nat}
    (hend : (Link.resume^[n] s).reading = [])
    (hall : (Link.resume^[n] s).returned = messages.map Message.outcome) :
    Delimited (sizesOf ms cs) := by
  induction n generalizing s ms cs with
  | zero =>
    have hreads := h.reads
    cases ms with
    | nil =>
      rw [hreads.2]
      trivial
    | cons m ms =>
      obtain ⟨-, r, hr, -⟩ := hreads
      rw [show s.reading = [] from hend] at hr
      cases hr
  | succ n ih =>
    cases hreading : s.reading with
    | nil =>
      have hsame : s.resume = s := by simp only [Link.resume, hreading]
      rw [Function.iterate_succ_apply, hsame] at hend hall
      exact ih h hdata hwire hsending hend hall
    | cons r reads =>
      cases r with
      | done r =>
        obtain ⟨rfl, -, hinv⟩ := h.returns hreading
        have hsame : s.resume.conn = s.conn ∧ s.resume.sending = s.sending ∧ s.resume.data = s.data := by
          simp only [Link.resume, hreading, and_self]
        rw [← sizesOf_tail]
        exact ih hinv (hsame.2.2.trans hdata) (hsame.1 ▸ hwire) (hsame.2.1.trans hsending) hend hall
      | receive size next =>
        cases hrx : s.conn.rxBuffer with
        | nil => exact absurd hend (Link.not_finished_of_empty hreading hrx _)
        | cons b rx =>
          have hsome : s.conn.rxBuffer ≠ [] := hrx ▸ cons_ne_nil _ _
          by_cases hsize : size = 0
          · subst hsize
            exact (h.takes_all hreading hdata hsome hend hall).elim
          · obtain ⟨packet, cs', k, rfl, hk, hcase⟩ := h.receives hreading hsize
            have hlen : s.conn.rxBuffer.length = packet.length + ((sizesOf ms cs').map u32).sum := by
              rw [← length_rest (fun c hc => h.sized c (mem_cons_of_mem _ hc)) ms, ← length_append]
              have hstream := congrArg List.length h.stream
              rw [hwire, hsending, hdata] at hstream
              simpa only [nil_append, append_nil, flatten_nil, bytes_cons,
                append_assoc] using hstream
            rw [hdata, length_nil] at hk
            split at hcase
            case isTrue hdone =>
              obtain ⟨hinv, hdata', hwire', hsending'⟩ := hcase
              refine ⟨hsize, fun hge => ?_,
                ih hinv hdata' (hwire'.trans hwire) (hsending'.trans hsending) hend hall⟩
              have hmore := hdone.2.resolve_left (not_lt.mpr hge)
              change ((sizesOf ms cs').map u32).sum ≠ 0
              omega
            case isFalse hwait =>
              -- the packet is there but no byte after it
              obtain ⟨-, hreading', hrx', -, -⟩ := hcase
              have hnone : s.resume.conn.rxBuffer = [] := by
                rw [hrx', drop_eq_nil_iff]
                omega
              exact absurd hend (Link.not_finished_of_empty (hreading'.trans hreading) hnone n)

theorem Connection.sendCondition_of_room (c : Connection) (packet : Packet)
    (hroom : c.txSize + packet.length < c.maxBuffer) :
    ∃ c', c.sendCondition false false packet = ⟨true, [], c'⟩ ∧ c'.maxBuffer = c.maxBuffer ∧
      c'.txSize = c.txSize + packet.length := by
  have hpos : ¬ c.getTxAvailable ≤ 0 := by
    unfold Connection.getTxAvailable
    omega
  have hmin : min c.getTxAvailable packet.length = packet.length := by
    unfold Connection.getTxAvailable
    omega
  have hfits : packet.length ≤ c.getTxAvailable := by
    unfold Connection.getTxAvailable
    omega
  rw [Connection.sendCondition]
  simp only [Bool.false_eq_true, if_false, false_or, hpos, dif_neg, not_false_eq_true, hmin,
    take_length, Connection.send, hfits, dif_pos, drop_length, length_nil, lt_irrefl]
  exact ⟨_, rfl, rfl, rfl⟩

theorem Link.sends_all (packets : List Packet) (hsending : s.sending = packets)
    (hroom : s.conn.txSize + packets.flatten.length < s.conn.maxBuffer) :
    (s.run (List.replicate packets.length .send)).sending = [] ∧
      (s.run (List.replicate packets.length .send)).data = s.data := by
  induction packets generalizing s with
  | nil => exact ⟨hsending, rfl⟩
  | cons packet packets ih =>
    rw [flatten_cons, length_append] at hroom
    obtain ⟨c', heval, hmax, hsize⟩ := Connection.sendCondition_of_room s.conn packet (by omega)
    have hsend : s.send = { s with conn := c', sending := packets } := by
      simp only [Link.send, hsending, heval, if_true]
    obtain ⟨hend, hdata⟩ := ih (s := s.send) (by rw [hsend]) (by rw [hsend, hmax, hsize]; omega)
    refine ⟨hend, hdata.trans ?_⟩
    rw [hsend]

theorem Link.Inv.sends (h : s.Inv messages ms cs) (n : Nat) :
    (s.run (List.replicate n .send)).Inv messages ms cs := by
  induction n generalizing s with
  | zero => exact h
  | succ n ih => exact ih h.send

theorem delimited_of_framed (h : Framed messages) : Delimited (messages.flatMap Message.sizes) := by
  -- the run that sends everything and lets everything arrive before the first read
  let packets := messages.flatMap Message.write
  let s₀ := Link.start (packets.flatten.length + 1) messages
  let s₁ := s₀.run (List.replicate packets.length .send)
  obtain ⟨hsending, hdata⟩ := Link.sends_all (s := s₀) packets rfl (by
    change 0 + packets.flatten.length < packets.flatten.length + 1
    omega)
  have hinv : (s₁.step (.arrive s₁.conn.wire.length)).Inv messages messages (headFormat messages) :=
    ((Link.Inv.start _ messages).sends _).arrive _
  have hwire : (s₁.step (.arrive s₁.conn.wire.length)).conn.wire = [] := drop_length
  have hrun : s₀.run (List.replicate packets.length .send ++ [.arrive s₁.conn.wire.length]) =
      s₁.step (.arrive s₁.conn.wire.length) := by
    rw [Link.run, foldl_append]
    rfl
  obtain ⟨n, hend, hall, -⟩ := h.complete (packets.flatten.length + 1)
    (List.replicate packets.length .send ++ [.arrive s₁.conn.wire.length])
    (by rw [hrun]; exact hsending) (by rw [hrun]; exact hwire)
  rw [hrun] at hend hall
  have hd := hinv.delimited hdata hwire hsending hend hall
  rw [sizesOf, ← formats_eq, formats, map_flatMap] at hd
  exact hd

/-- The bytes of messages are framed exactly if no receive of a reader asks for 0 bytes,
and one of `2 ^ 32` or more is followed by another byte. -/
theorem framed_iff (messages : List Message) :
    Framed messages ↔ Delimited (messages.flatMap Message.sizes) :=
  ⟨delimited_of_framed, framed_of_delimited⟩

/-- A vector of no elements, alone. -/
def emptyVector : Message :=
  .object (.vector (.integral ⟨4, true, by decide⟩ (by decide))) ([] : List (BitVec (8 * 4)))
    (show 4 * 0 < 2 ^ 32 by decide)

/-- Its count is sent and read, then the reader asks for 0 bytes and waits for ever. -/
theorem not_framed_emptyVector : ¬ Framed [emptyVector] := fun h => (delimited_of_framed h).2.2.1 rfl

end MoeJit.Mpi
