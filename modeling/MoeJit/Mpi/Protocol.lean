import MoeJit.Coroutine.Socket
import MoeJit.Mpi.Communicator

/-!
# Objects on the wire

`MPIObjectWriter` and `MPIObjectReader`: an integral value is its bytes, a vector
its length as a `std::size_t` and its elements, in one packet where the elements
are of fixed size. A fake message has the size of its object and no content. The
stream has no delimiters: the reader asks for the sizes that the writer used.

`Message.follows_read` relates the two sides through the format: the list of the sizes
asked for and of the packets that answer them.
-/

namespace MoeJit.Mpi

open Bytes Words Coroutine List

/-! ## 1. Types and values -/

/-- The types of objects. -/
inductive MPIType
  | integral (T : IntType) (le : T.size ≤ 16)
  | vector (T : MPIType)

def Value : MPIType → Type
  | .integral T _ => T.Val
  | .vector T => List (Value T)

/-- What a vector can hold: the elements of a batch fit in a packet, and every length
is a `std::size_t`. -/
def Fits : (T : MPIType) → Value T → Prop
  | .integral _ _, _ => True
  | .vector (.integral T _), (l : List T.Val) => T.size * l.length < 2 ^ 32
  | .vector (.vector T), (l : List (Value (.vector T))) =>
    l.length < 2 ^ 64 ∧ ∀ v ∈ l, Fits (.vector T) v

/-- Fake objects: those of an integral type, `FakeDataPacket` and vectors of fake
objects of one kind. -/
inductive Fake
  | integral (T : IntType) (le : T.size ≤ 16)
  | data (packetSize : UInt64)
  | vector (element : Fake) (count : UInt64)

/-- `size(FakePacket, ...)`, where it is defined. -/
def Fake.size : Fake → Option UInt64
  | .integral T _ => some (UInt64.ofNat T.size)
  | .data packetSize => some packetSize
  | .vector _ _ => none

/-- What one call of a writer sends. -/
inductive Message
  | object (T : MPIType) (v : Value T) (fits : Fits T v)
  | fake (f : Fake)

/-- What one call of a reader returns. -/
inductive Result
  | object (T : MPIType) (v : Value T)
  | fake

def Message.result : Message → Result
  | .object T v _ => .object T v
  | .fake _ => .fake

/-! ## 2. Writers -/

/-- `Create<Packet>(size)`, with a 32-bit size. -/
def createPacket (size : Nat) : Packet := List.replicate (u32 size) 0

/-- The packets that `MPIObjectWriter<T>` sends. -/
def write : (T : MPIType) → Value T → List Packet
  | .integral _ _, v => [toBytes v]
  | .vector (.integral _ _), (l : List (BitVec _)) => natBytes 8 l.length :: [l.flatMap toBytes]
  | .vector (.vector T), (l : List (Value (.vector T))) =>
    natBytes 8 l.length :: l.flatMap (write (.vector T))

/-- The packets of a fake object. -/
def Fake.write : Fake → List Packet
  | .integral T _ => [createPacket T.size]
  | .data packetSize => [createPacket packetSize.toNat]
  | .vector element count => natBytes 8 count.toNat ::
    match element.size with
    | some size => [createPacket (count * size).toNat]
    | none => (List.replicate count.toNat element.write).flatten

def Message.write : Message → List Packet
  | .object T v _ => Mpi.write T v
  | .fake f => f.write

/-! ## 3. Readers -/

/-- A coroutine that reads: it returns, or waits for `receive(size)` and goes on with
the packet. -/
inductive Reader (α : Type)
  | done (a : α)
  | receive (size : Nat) (next : Packet → Reader α)

namespace Reader

variable {α β : Type}

def bind : Reader α → (α → Reader β) → Reader β
  | done a, f => f a
  | receive size next, f => receive size fun packet => (next packet).bind f

def map (f : α → β) (r : Reader α) : Reader β := r.bind fun a => done (f a)

/-- A loop that reads `count` objects. -/
def many (r : Reader α) : Nat → Reader (List α)
  | 0 => done []
  | count + 1 => r.bind fun a => (r.many count).map (a :: ·)

end Reader

/-- The objects of a batch, one after the other from the front of the packet. -/
def split (T : IntType) : Nat → Packet → List T.Val
  | 0, _ => []
  | count + 1, packet => ofBytes T.size (packet.take T.size) :: split T count (packet.drop T.size)

/-- `MPIObjectReader<std::size_t>`. -/
def readSize : Reader Nat := .receive 8 fun packet => .done (natOfBytes (packet.take 8))

/-- `MPIObjectReader<T>`. -/
def read : (T : MPIType) → Reader (Value T)
  | .integral T _ => .receive T.size fun packet => .done (ofBytes T.size (packet.take T.size))
  | .vector (.integral T _) => readSize.bind fun count =>
    .receive (u64 (T.size * count)) fun packet => .done (split T count packet)
  | .vector (.vector T) => readSize.bind fun count => (read (.vector T)).many count

/-- The reader of a fake object. -/
def Fake.read : Fake → Reader Unit
  | .integral T _ => .receive T.size fun _ => .done ()
  | .data packetSize => .receive packetSize.toNat fun _ => .done ()
  | .vector element count => readSize.bind fun _ =>
    match element.size with
    | some size => .receive (count * size).toNat fun _ => .done ()
    | none => (element.read.many count.toNat).map fun _ => ()

/-- The reader of a message's type. -/
def Message.read : Message → Reader Result
  | .object T _ _ => (Mpi.read T).map (.object T)
  | .fake f => f.read.map fun _ => .fake

/-! ## 4. The format -/

/-- A size that a reader asks for and the packet that is meant for it. -/
abbrev Chunk := Nat × Packet

/-- The chunks of a value. -/
def format : (T : MPIType) → Value T → List Chunk
  | .integral T _, v => [(T.size, toBytes v)]
  | .vector (.integral T _), (l : List T.Val) =>
    (8, natBytes 8 l.length) :: [(T.size * l.length, l.flatMap toBytes)]
  | .vector (.vector T), (l : List (Value (.vector T))) =>
    (8, natBytes 8 l.length) :: l.flatMap (format (.vector T))

/-- A chunk without content. -/
def fakeChunk (size : Nat) : Chunk := (size, createPacket size)

def Fake.format : Fake → List Chunk
  | .integral T _ => [fakeChunk T.size]
  | .data packetSize => [fakeChunk packetSize.toNat]
  | .vector element count => (8, natBytes 8 count.toNat) ::
    match element.size with
    | some size => [fakeChunk (count * size).toNat]
    | none => (List.replicate count.toNat element.format).flatten

def Message.format : Message → List Chunk
  | .object T v _ => Mpi.format T v
  | .fake f => f.format

theorem packets_format (T : MPIType) (v : Value T) : (format T v).map Prod.snd = write T v := by
  induction T with
  | integral => rfl
  | vector T ih =>
    cases T with
    | integral => rfl
    | vector T =>
      revert v
      intro (l : List (Value (.vector T)))
      simp only [format, write, map_cons, map_flatMap, ih]

theorem Fake.packets_format (f : Fake) : f.format.map Prod.snd = f.write := by
  induction f with
  | integral => rfl
  | data => rfl
  | vector element count ih =>
    rw [Fake.format, Fake.write, map_cons]
    cases element.size with
    | some => rfl
    | none => simp only [map_flatten, map_replicate, ih]

theorem Message.packets_format (m : Message) : m.format.map Prod.snd = m.write := by
  cases m with
  | object T v => exact Mpi.packets_format T v
  | fake f => exact f.packets_format

/-- A packet has the size asked for, converted to 32 bits. -/
def Sized (c : Chunk) : Prop := c.2.length = u32 c.1

theorem sized_fakeChunk (size : Nat) : Sized (fakeChunk size) := length_replicate

theorem sized_count (n : Nat) : Sized (8, natBytes 8 n) := length_natBytes 8 n

theorem length_flatMap_toBytes {k : Nat} (l : List (BitVec (8 * k))) :
    (l.flatMap toBytes).length = k * l.length := by
  induction l with
  | nil => rfl
  | cons x l ih =>
    rw [flatMap_cons, length_append, length_toBytes, ih, length_cons]
    ring

theorem sized_format (T : MPIType) (v : Value T) (fits : Fits T v) : ∀ c ∈ format T v, Sized c := by
  induction T with
  | integral T le =>
    rintro c hc
    obtain rfl := mem_singleton.mp hc
    exact (length_toBytes v).trans (u32_of_lt (lt_of_le_of_lt le (by decide))).symm
  | vector T ih =>
    cases T with
    | integral T le =>
      rintro c hc
      cases hc with
      | head => exact sized_count _
      | tail _ hc =>
        obtain rfl := mem_singleton.mp hc
        exact (length_flatMap_toBytes v).trans (u32_of_lt fits).symm
    | vector T =>
      rintro c hc
      cases hc with
      | head => exact sized_count _
      | tail _ hc =>
        obtain ⟨w, hw, hcw⟩ := mem_flatMap.mp hc
        exact ih w (fits.2 w hw) c hcw

theorem Fake.sized_format (f : Fake) : ∀ c ∈ f.format, Sized c := by
  induction f with
  | integral T | data packetSize =>
    rintro c hc
    exact mem_singleton.mp hc ▸ sized_fakeChunk _
  | vector element count ih =>
    rintro c hc
    rw [Fake.format] at hc
    cases hc with
    | head => exact sized_count _
    | tail _ hc =>
      cases hsize : element.size with
      | some size =>
        rw [hsize] at hc
        exact mem_singleton.mp hc ▸ sized_fakeChunk _
      | none =>
        rw [hsize] at hc
        obtain ⟨l, hl, hcl⟩ := mem_flatten.mp hc
        exact ih c (eq_of_mem_replicate hl ▸ hcl)

theorem Message.sized_format (m : Message) : ∀ c ∈ m.format, Sized c := by
  cases m with
  | object T v fits => exact Mpi.sized_format T v fits
  | fake f => exact f.sized_format

/-! ## 5. The reader follows the format -/

/-- The reader asks for the sizes of the chunks and returns `a` if it gets their
packets. Where it asks for no bytes it does not look at the packet. -/
inductive Follows {α : Type} : Reader α → List Chunk → α → Prop
  | done (a : α) : Follows (.done a) [] a
  | receive {size : Nat} {next : Packet → Reader α} {packet : Packet} {cs : List Chunk} {a : α}
      (h : Follows (next packet) cs a)
      (hzero : size = 0 → ∀ packet', Follows (next packet') cs a) :
      Follows (.receive size next) ((size, packet) :: cs) a

variable {α β : Type}

theorem Follows.bind {r : Reader α} {cs cs' : List Chunk} {a : α} {f : α → Reader β} {b : β}
    (h : Follows r cs a) (h' : Follows (f a) cs' b) : Follows (r.bind f) (cs ++ cs') b := by
  induction h with
  | done => exact h'
  | receive _ _ ih ihzero => exact .receive (ih h') fun hz packet => ihzero hz packet h'

theorem Follows.map {r : Reader α} {cs : List Chunk} {a : α} (h : Follows r cs a) (f : α → β) :
    Follows (r.map f) cs (f a) := by
  have := h.bind (f := fun a => Reader.done (f a)) (.done (f a))
  rwa [append_nil] at this

theorem Follows.many {r : Reader α} {format : α → List Chunk} {l : List α}
    (h : ∀ a ∈ l, Follows r (format a) a) : Follows (r.many l.length) (l.flatMap format) l := by
  induction l with
  | nil => exact .done []
  | cons a l ih =>
    exact (h a mem_cons_self).bind ((ih fun b hb => h b (mem_cons_of_mem _ hb)).map (a :: ·))

theorem split_flatMap (T : IntType) (l : List T.Val) :
    split T l.length (l.flatMap toBytes) = l := by
  induction l with
  | nil => rfl
  | cons x l ih =>
    have hlen := length_toBytes x
    rw [length_cons, flatMap_cons, split, take_left' hlen, drop_left' hlen, ih, ofBytes_toBytes]

theorem Follows.afterSize {n : Nat} {f : Nat → Reader β} {cs : List Chunk} {b : β} (h : n < 2 ^ 64)
    (h' : Follows (f n) cs b) : Follows (readSize.bind f) ((8, natBytes 8 n) :: cs) b := by
  refine .receive ?_ nofun
  change Follows (f (natOfBytes ((natBytes 8 n).take 8))) cs b
  rw [take_of_length_le (length_natBytes 8 n).le, natOfBytes_natBytes h]
  exact h'

theorem follows_batch (T : IntType) {l : List T.Val} (hfits : T.size * l.length < 2 ^ 32) :
    Follows (.receive (u64 (T.size * l.length)) fun packet => .done (split T l.length packet))
      [(T.size * l.length, l.flatMap toBytes)] l := by
  rw [u64_of_lt (hfits.trans (by decide))]
  refine .receive ?_ fun hzero packet => ?_
  · rw [split_flatMap]
    exact .done l
  · -- a batch of no elements
    have hnil : l = [] := length_eq_zero_iff.mp
      ((Nat.mul_eq_zero.mp hzero).resolve_left T.size_pos.ne')
    rw [hnil]
    exact .done []

theorem follows_read (T : MPIType) (v : Value T) (fits : Fits T v) :
    Follows (read T) (format T v) v := by
  induction T with
  | integral T le =>
    revert v
    intro (v : T.Val) _
    refine .receive ?_ fun hzero => absurd hzero T.size_pos.ne'
    rw [take_of_length_le (length_toBytes v).le, ofBytes_toBytes]
    exact .done v
  | vector T ih =>
    cases T with
    | integral T le =>
      revert v
      intro (l : List T.Val) (fits : T.size * l.length < 2 ^ 32)
      have hle : l.length ≤ T.size * l.length := Nat.le_mul_of_pos_left _ T.size_pos
      exact .afterSize ((hle.trans_lt fits).trans (by decide)) (follows_batch T fits)
    | vector T =>
      exact .afterSize fits.1 (.many fun w hw => ih w (fits.2 w hw))

theorem Fake.follows_read (f : Fake) : Follows f.read f.format () := by
  induction f with
  | integral T | data packetSize => exact .receive (.done ()) fun _ _ => .done ()
  | vector element count ih =>
    rw [Fake.read, Fake.format]
    refine .afterSize count.toNat_lt ?_
    cases element.size with
    | some size => exact .receive (.done ()) fun _ _ => .done ()
    | none =>
      have hmany := Follows.many (l := List.replicate count.toNat ()) fun _ _ => ih
      rw [length_replicate] at hmany
      have hflat : (List.replicate count.toNat ()).flatMap (fun _ => element.format) =
          (List.replicate count.toNat element.format).flatten := by
        rw [flatMap_def, map_replicate]
      exact hflat ▸ hmany.map _

theorem Message.follows_read (m : Message) : Follows m.read m.format m.result := by
  cases m with
  | object T v fits => exact (Mpi.follows_read T v fits).map _
  | fake f => exact f.follows_read.map _

end MoeJit.Mpi
