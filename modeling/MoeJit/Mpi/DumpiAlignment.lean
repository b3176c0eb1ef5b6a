import MoeJit.Mpi.Dumpi

/-!
# Alignment of DUMPI records

The layout of the records as the structs of the functions document it, and when the
reader keeps to it.

`alignedTrace_iff`: the reader dispatches on the functions of a trace, each case
reading exactly the fields of its record, if and only if every record passes the
reader's own comparisons of its fields, no `Gatherv` comes from a rank that is not the root,
and no `Testall` with statuses in the trace has found its requests unfinished. The last
two are read as if their optional fields were always there.
-/

namespace MoeJit.Dumpi

open Bytes ByteReader List

/-! ## 1. Layout -/

def put32 (x : BitVec 32) : List Byte := put (k := 4) x
def put16 (x : BitVec 16) : List Byte := put (k := 2) x
def put8 (x : BitVec 8) : List Byte := put (k := 1) x

/-- Arrays with a length that a 32-bit field can hold. -/
abbrev Array32 := { l : List (BitVec 32) // l.length < 2 ^ 32 }

def put32arr (l : Array32) : List Byte := put32 (BitVec.ofNat 32 l.1.length) ++ l.1.flatMap put32

/-- The number of statuses is an `int`. -/
abbrev Statuses := { l : List DumpiStatus // l.length < 2 ^ 31 }

def putStatus (s : DumpiStatus) : List Byte :=
  put32 s.bytes ++ put32 s.source ++ put32 s.tag ++ put8 s.cancelled ++ put8 s.error

/-- Statuses are stored when the mask has a bit set. -/
def putStatuses (configMask : BitVec 8) (l : Statuses) : List Byte :=
  if configMask = 0 then [] else put32 (BitVec.ofNat 32 l.1.length) ++ l.1.flatMap putStatus

/-- An argument with its terminator fits the memory that the reader asks for. -/
abbrev Arg := { l : List Byte // l.length + 1 < 2 ^ 32 }

/-- The number of arguments is an `int`. -/
abbrev Argv := { l : List Arg // l.length < 2 ^ 31 }

def putArg (a : Arg) : List Byte := put32 (BitVec.ofNat 32 a.1.length) ++ a.1

def putArgv (l : Argv) : List Byte :=
  put32 (BitVec.ofNat 32 l.1.length) ++ l.1.flatMap putArg

/-- The calls that a trace records, with their fields in order. -/
inductive Call
  | init (argv : Argv)
  | commSize (comm : BitVec 16) (size : BitVec 32)
  | commRank (comm : BitVec 16) (rank : BitVec 32)
  | irecv (count : BitVec 32) (datatype : BitVec 16) (source tag : BitVec 32) (comm : BitVec 16)
      (request : BitVec 32)
  | isend (count : BitVec 32) (datatype : BitVec 16) (dest tag : BitVec 32) (comm : BitVec 16)
      (request : BitVec 32)
  | send (count : BitVec 32) (datatype : BitVec 16) (dest tag : BitVec 32) (comm : BitVec 16)
  | rsend (count : BitVec 32) (datatype : BitVec 16) (dest tag : BitVec 32) (comm : BitVec 16)
  | recv (count : BitVec 32) (datatype : BitVec 16) (source tag : BitVec 32) (comm : BitVec 16)
      (status : Statuses)
  | waitall (count : BitVec 32) (requests : Array32) (statuses : Statuses)
  | waitsome (count : BitVec 32) (requests : Array32) (outcount : BitVec 32) (indices : Array32)
      (statuses : Statuses)
  | wait (request : BitVec 32) (status : Statuses)
  | barrier (comm : BitVec 16)
  | wtime
  | allreduce (count : BitVec 32) (datatype : BitVec 16) (op : BitVec 8) (comm : BitVec 16)
  | reduce (count : BitVec 32) (datatype : BitVec 16) (op : BitVec 8) (root : BitVec 32)
      (comm : BitVec 16)
  | bcast (count : BitVec 32) (datatype : BitVec 16) (root : BitVec 32) (comm : BitVec 16)
  | alltoall (sendcount : BitVec 32) (sendtype : BitVec 16) (recvcount : BitVec 32)
      (recvtype comm : BitVec 16)
  | alltoallv (commsize : BitVec 32) (sendcounts senddispls : Array32) (sendtype : BitVec 16)
      (recvcounts recvdispls : Array32) (recvtype comm : BitVec 16)
  | allgather (sendcount : BitVec 32) (sendtype : BitVec 16) (recvcount : BitVec 32)
      (recvtype comm : BitVec 16)
  | allgatherv (commsize sendcount : BitVec 32) (sendtype : BitVec 16) (recvcounts displs : Array32)
      (recvtype comm : BitVec 16)
  | gather (commrank sendcount : BitVec 32) (sendtype : BitVec 16) (recvcount : BitVec 32)
      (recvtype : BitVec 16) (root : BitVec 32) (comm : BitVec 16)
  | gatherv (commrank commsize sendcount : BitVec 32) (sendtype : BitVec 16)
      (recvcounts displs : Array32) (recvtype : BitVec 16) (root : BitVec 32) (comm : BitVec 16)
  | initialized (result : BitVec 32)
  | testall (count : BitVec 32) (requests : Array32) (flag : BitVec 32) (statuses : Statuses)
  | sendrecv (sendcount : BitVec 32) (sendtype : BitVec 16) (dest sendtag recvcount : BitVec 32)
      (recvtype : BitVec 16) (source recvtag : BitVec 32) (comm : BitVec 16) (status : Statuses)
  | sendrecvReplace (count : BitVec 32) (datatype : BitVec 16)
      (dest sendtag source recvtag : BitVec 32) (comm : BitVec 16) (status : Statuses)
  | scatter (commrank sendcount : BitVec 32) (sendtype : BitVec 16) (recvcount : BitVec 32)
      (recvtype : BitVec 16) (root : BitVec 32) (comm : BitVec 16)
  | scatterv (commrank commsize : BitVec 32) (sendcounts displs : Array32) (sendtype : BitVec 16)
      (recvcount : BitVec 32) (recvtype : BitVec 16) (root : BitVec 32) (comm : BitVec 16)
  | reduceScatter (commsize : BitVec 32) (recvcounts : Array32) (datatype : BitVec 16)
      (op : BitVec 8) (comm : BitVec 16)
  | getCount (status : Statuses) (datatype : BitVec 16) (count : BitVec 32)
  | attrGet (comm : BitVec 16) (key flag : BitVec 32)
  | allocMem (size : BitVec 32) (info : BitVec 16)
  | freeMem
  | getVersion (version subversion : BitVec 32)
  | finalize

def Call.function : Call → DumpiFunction
  | init .. => .init | commSize .. => .commSize | commRank .. => .commRank | irecv .. => .irecv
  | isend .. => .isend | send .. => .send | rsend .. => .rsend | recv .. => .recv
  | waitall .. => .waitall | waitsome .. => .waitsome | wait .. => .wait | barrier .. => .barrier
  | wtime => .wtime | allreduce .. => .allreduce | reduce .. => .reduce | bcast .. => .bcast
  | alltoall .. => .alltoall | alltoallv .. => .alltoallv | allgather .. => .allgather
  | allgatherv .. => .allgatherv | gather .. => .gather | gatherv .. => .gatherv
  | initialized .. => .initialized | testall .. => .testall | sendrecv .. => .sendrecv
  | sendrecvReplace .. => .sendrecvReplace | scatter .. => .scatter | scatterv .. => .scatterv
  | reduceScatter .. => .reduceScatter | getCount .. => .getCount | attrGet .. => .attrGet
  | allocMem .. => .allocMem | freeMem => .freeMem | getVersion .. => .getVersion
  | finalize => .finalize

/-- The fields of a call. Those only stored at the root follow the root and the
communicator: before them nothing tells whether they are there. -/
def Call.encode (configMask : BitVec 8) : Call → List Byte
  | init argv => putArgv argv
  | commSize comm size => put16 comm ++ put32 size
  | commRank comm rank => put16 comm ++ put32 rank
  | irecv count datatype source tag comm request =>
    put32 count ++ put16 datatype ++ put32 source ++ put32 tag ++ put16 comm ++ put32 request
  | isend count datatype dest tag comm request =>
    put32 count ++ put16 datatype ++ put32 dest ++ put32 tag ++ put16 comm ++ put32 request
  | send count datatype dest tag comm =>
    put32 count ++ put16 datatype ++ put32 dest ++ put32 tag ++ put16 comm
  | rsend count datatype dest tag comm =>
    put32 count ++ put16 datatype ++ put32 dest ++ put32 tag ++ put16 comm
  | recv count datatype source tag comm status =>
    put32 count ++ put16 datatype ++ put32 source ++ put32 tag ++ put16 comm ++
      putStatuses configMask status
  | waitall count requests statuses =>
    put32 count ++ put32arr requests ++ putStatuses configMask statuses
  | waitsome count requests outcount indices statuses =>
    put32 count ++ put32arr requests ++ put32 outcount ++ put32arr indices ++
      putStatuses configMask statuses
  | wait request status => put32 request ++ putStatuses configMask status
  | barrier comm => put16 comm
  | wtime => []
  | allreduce count datatype op comm => put32 count ++ put16 datatype ++ put8 op ++ put16 comm
  | reduce count datatype op root comm =>
    put32 count ++ put16 datatype ++ put8 op ++ put32 root ++ put16 comm
  | bcast count datatype root comm => put32 count ++ put16 datatype ++ put32 root ++ put16 comm
  | alltoall sendcount sendtype recvcount recvtype comm =>
    put32 sendcount ++ put16 sendtype ++ put32 recvcount ++ put16 recvtype ++ put16 comm
  | alltoallv commsize sendcounts senddispls sendtype recvcounts recvdispls recvtype comm =>
    put32 commsize ++ put32arr sendcounts ++ put32arr senddispls ++ put16 sendtype ++
      put32arr recvcounts ++ put32arr recvdispls ++ put16 recvtype ++ put16 comm
  | allgather sendcount sendtype recvcount recvtype comm =>
    put32 sendcount ++ put16 sendtype ++ put32 recvcount ++ put16 recvtype ++ put16 comm
  | allgatherv commsize sendcount sendtype recvcounts displs recvtype comm =>
    put32 commsize ++ put32 sendcount ++ put16 sendtype ++ put32arr recvcounts ++
      put32arr displs ++ put16 recvtype ++ put16 comm
  | gather commrank sendcount sendtype recvcount recvtype root comm =>
    put32 commrank ++ put32 sendcount ++ put16 sendtype ++ put32 root ++ put16 comm ++
      (if commrank = root then put32 recvcount ++ put16 recvtype else [])
  | gatherv commrank commsize sendcount sendtype recvcounts displs recvtype root comm =>
    put32 commrank ++ put32 commsize ++ put32 sendcount ++ put16 sendtype ++ put32 root ++
      put16 comm ++
      (if commrank = root then put32arr recvcounts ++ put32arr displs ++ put16 recvtype else [])
  | initialized result => put32 result
  | testall count requests flag statuses =>
    put32 count ++ put32arr requests ++ put32 flag ++
      (if flag ≠ 0 then putStatuses configMask statuses else [])
  | sendrecv sendcount sendtype dest sendtag recvcount recvtype source recvtag comm status =>
    put32 sendcount ++ put16 sendtype ++ put32 dest ++ put32 sendtag ++ put32 recvcount ++
      put16 recvtype ++ put32 source ++ put32 recvtag ++ put16 comm ++
      putStatuses configMask status
  | sendrecvReplace count datatype dest sendtag source recvtag comm status =>
    put32 count ++ put16 datatype ++ put32 dest ++ put32 sendtag ++ put32 source ++
      put32 recvtag ++ put16 comm ++ putStatuses configMask status
  | scatter commrank sendcount sendtype recvcount recvtype root comm =>
    put32 commrank ++ put32 recvcount ++ put16 recvtype ++ put32 root ++ put16 comm ++
      (if commrank = root then put32 sendcount ++ put16 sendtype else [])
  | scatterv commrank commsize sendcounts displs sendtype recvcount recvtype root comm =>
    put32 commrank ++ put32 commsize ++ put16 sendtype ++ put32 recvcount ++ put16 recvtype ++
      put32 root ++ put16 comm ++
      (if commrank = root then put32arr sendcounts ++ put32arr displs else [])
  | reduceScatter commsize recvcounts datatype op comm =>
    put32 commsize ++ put32arr recvcounts ++ put16 datatype ++ put8 op ++ put16 comm
  | getCount status datatype count =>
    putStatuses configMask status ++ put16 datatype ++ put32 count
  | attrGet comm key flag => put16 comm ++ put32 key ++ put32 flag
  | allocMem size info => put32 size ++ put16 info
  | freeMem => []
  | getVersion version subversion => put32 version ++ put32 subversion
  | finalize => []

/-- A record: the call with the mask and the 26 bytes of its time stamps. -/
structure Record where
  configMask : BitVec 8
  stamps : { l : List Byte // l.length = 26 }
  call : Call

def Record.code (r : Record) : BitVec 16 := r.call.function.code

def Record.body (r : Record) : List Byte := r.call.encode r.configMask

def Record.encode (r : Record) : List Byte :=
  put16 r.code ++ put8 r.configMask ++ r.stamps.1 ++ r.body

/-- The records up to the end of the stream, and what the file has after it. -/
def putRecords (records : List Record) (footer : List Byte) : List Byte :=
  records.flatMap Record.encode ++ put16 endOfStream ++ footer

abbrev Header := { l : List Byte // l.length = 16 }

def traceFile (header : Header) (records : List Record) (footer : List Byte) : List Byte :=
  header.1 ++ putRecords records footer

/-! ## 2. Statement -/

/-- The code of each record and the file after its fields. -/
def expected (footer : List Byte) : List Record → List (BitVec 16 × List Byte)
  | [] => []
  | r :: records => (r.code, putRecords records footer) :: expected footer records

/-- The reader dispatches on the codes of the records and leaves the file after each
case where the record ends. -/
def AlignedTrace (header : Header) (records : List Record) (footer : List Byte) : Prop :=
  ∃ turns, parseTrace (traceFile header records footer) = .ok turns ∧
    turns.map (fun turn => (turn.mpiFunction, turn.rest)) = expected footer records

/-- What the reader relies on in a record. -/
def Call.Aligned (configMask : BitVec 8) : Call → Prop
  | alltoall sendcount sendtype recvcount recvtype _ => sendtype = recvtype ∧ sendcount = recvcount
  | allgather sendcount sendtype recvcount recvtype _ =>
    sendtype = recvtype ∧ sendcount = recvcount
  | alltoallv _ _ _ sendtype _ _ recvtype _ => sendtype = recvtype
  | allgatherv _ _ sendtype _ _ recvtype _ => sendtype = recvtype
  | gather commrank _ sendtype _ recvtype root _ => commrank = root → sendtype = recvtype
  | gatherv commrank _ sendcount sendtype recvcounts _ recvtype root _ =>
    commrank = root ∧ element? recvcounts.1 commrank = some sendcount ∧ sendtype = recvtype
  | scatter commrank _ sendtype _ recvtype root _ => commrank = root → sendtype = recvtype
  | scatterv _ _ _ _ sendtype _ recvtype _ _ => sendtype = recvtype
  | testall _ _ flag _ => flag ≠ 0 ∨ configMask = 0
  | _ => True

def Record.Aligned (r : Record) : Prop := r.call.Aligned r.configMask

/-! ## 3. Fields -/

theorem reads_get32 (x : BitVec 32) : Reads get32 (put32 x) x := reads_get (k := 4) x
theorem reads_get16 (x : BitVec 16) : Reads get16 (put16 x) x := reads_get (k := 2) x
theorem reads_get8 (x : BitVec 8) : Reads get8 (put8 x) x := reads_get (k := 1) x

theorem reads_get32arr (l : Array32) : Reads get32arr (put32arr l) l.1 := by
  refine (reads_get32 _).bind ?_
  rw [BitVec.toNat_ofNat, Nat.mod_eq_of_lt l.2]
  exact Reads.many reads_get32 l.1

theorem toInt_count {n : Nat} (hn : n < 2 ^ 31) : (BitVec.ofNat 32 n).toInt.toNat = n := by
  have htoNat : (BitVec.ofNat 32 n).toNat = n := by
    rw [BitVec.toNat_ofNat, Nat.mod_eq_of_lt (by omega)]
  rw [BitVec.toInt_eq_toNat_of_lt (by rw [htoNat]; omega), htoNat, Int.toNat_natCast]

theorem length_putStatus (s : DumpiStatus) : (putStatus s).length = 14 := by
  simp only [putStatus, put32, put8, length_append, length_put]

/-- The reader takes the tag of a status last, the struct has it third; the bytes are
as many. -/
theorem passes_getStatus (s : DumpiStatus) : Passes getStatus (putStatus s) := by
  refine Skips.passes ?_ (length_putStatus s)
  exact (skips_get 4).bind fun _ => (skips_get 4).bind fun _ => (skips_get 1).bind fun _ =>
    (skips_get 1).bind fun _ => (skips_get 4).map _

theorem passes_getStatuses (configMask : BitVec 8) (l : Statuses) :
    Passes (getStatuses configMask) (putStatuses configMask l) := by
  unfold getStatuses putStatuses
  cases decEq configMask 0 with
  | isTrue h =>
    rw [if_neg (not_not.mpr h), if_pos h]
    exact passes_pure []
  | isFalse h =>
    rw [if_pos h, if_neg h]
    intro s
    rw [append_assoc]
    refine (reads_get32 _).takes.mpr ?_
    rw [toInt_count l.2]
    exact Passes.many passes_getStatus l.1 s

theorem passes_readArg (a : Arg) : Passes readArg (putArg a) := by
  intro s
  rw [putArg, append_assoc]
  refine (reads_get32 _).takes.mpr ?_
  rw [BitVec.toNat_ofNat, Nat.mod_eq_of_lt (Nat.lt_of_succ_lt a.2)]
  exact (reads_raw a.1).passes s

theorem takes_argv {argv : Argv} {s t : List Byte} {α : Type} {x : Trace α} :
    Takes (do let argcCount ← get32; let _argv ← many readArg argcCount.toInt.toNat; x)
      (putArgv argv ++ s) t ↔ Takes x s t := by
  rw [putArgv, append_assoc, (reads_get32 _).takes, toInt_count argv.2]
  exact (Passes.many passes_readArg argv.1).takes

section Takes

variable {α : Type} {s t : List Byte}

@[simp] theorem takes_get32 {x : BitVec 32} {f : BitVec 32 → Trace α} :
    Takes (get32 >>= f) (put32 x ++ s) t ↔ Takes (f x) s t := (reads_get32 x).takes

@[simp] theorem takes_get16 {x : BitVec 16} {f : BitVec 16 → Trace α} :
    Takes (get16 >>= f) (put16 x ++ s) t ↔ Takes (f x) s t := (reads_get16 x).takes

@[simp] theorem takes_get8 {x : BitVec 8} {f : BitVec 8 → Trace α} :
    Takes (get8 >>= f) (put8 x ++ s) t ↔ Takes (f x) s t := (reads_get8 x).takes

@[simp] theorem takes_get32arr {l : Array32} {f : List (BitVec 32) → Trace α} :
    Takes (get32arr >>= f) (put32arr l ++ s) t ↔ Takes (f l.1) s t := (reads_get32arr l).takes

@[simp] theorem takes_getStatuses {configMask : BitVec 8} {l : Statuses} {x : Trace α} :
    Takes (getStatuses configMask >>= fun _ => x) (putStatuses configMask l ++ s) t ↔
      Takes x s t := (passes_getStatuses configMask l).takes

@[simp] theorem takes_throwIf {c : Prop} [Decidable c] {what : String} {x : Trace α} :
    Takes (throwIf c what >>= fun _ => x) s t ↔ ¬c ∧ Takes x s t := by
  rw [takes_bind]
  unfold throwIf
  split
  · next hc =>
    constructor
    · rintro ⟨_, _, h, _⟩
      cases h
    · rintro ⟨h, _⟩
      exact absurd hc h
  · next hc =>
    constructor
    · rintro ⟨_, _, h, hx⟩
      cases h
      exact ⟨hc, hx⟩
    · rintro ⟨_, hx⟩
      exact ⟨(), s, rfl, hx⟩

@[simp] theorem takes_element {xs : List (BitVec 32)} {i : BitVec 32} {f : BitVec 32 → Trace α} :
    Takes (element xs i >>= f) s t ↔ ∃ x, element? xs i = some x ∧ Takes (f x) s t := by
  rw [takes_bind]
  unfold element
  split
  · next x hx =>
    constructor
    · rintro ⟨_, _, h, hf⟩
      cases h
      exact ⟨x, hx, hf⟩
    · rintro ⟨y, hy, hf⟩
      rw [hx] at hy
      cases hy
      exact ⟨x, s, rfl, hf⟩
  · next hnone =>
    constructor
    · rintro ⟨_, _, h, _⟩
      cases h
    · rintro ⟨_, h, _⟩
      rw [hnone] at h
      cases h

@[simp] theorem takes_getRooted {count : BitVec 32} {type type' : BitVec 16} {what : String}
    {x : Trace α} :
    Takes (getRooted type what >>= fun _ => x) (put32 count ++ (put16 type' ++ s)) t ↔
      type = type' ∧ Takes x s t := by
  unfold getRooted
  simp only [bind_assoc, takes_get32, takes_get16]
  rw [takes_throwIf, not_not]

end Takes

/-! ## 4. A record -/

theorem takes_getStatuses_self {α : Type} {configMask : BitVec 8} {a : α} {s : List Byte} :
    Takes (getStatuses configMask >>= fun _ => (pure a : Trace α)) s s ↔ configMask = 0 := by
  unfold getStatuses
  cases decEq configMask 0 with
  | isTrue h =>
    rw [if_neg (not_not.mpr h), pure_bind]
    exact iff_of_true (takes_pure.mpr rfl) h
  | isFalse h =>
    rw [if_pos h]
    have hcount : Consumes (do let count ← get32; many getStatus count.toInt.toNat) 4 :=
      (consumes_get 4).bind fun _ => Forward.consumes
    exact iff_of_false ((hcount.bind fun _ => consumes_pure a).not_takes (by decide) s) h

/-- The case of a function takes exactly the fields of its record. -/
theorem takes_dispatch (configMask : BitVec 8) (call : Call) (s : List Byte) :
    Takes (dispatch configMask call.function) (call.encode configMask ++ s) s ↔
      call.Aligned configMask := by
  cases call with
  | init argv =>
    show Takes (do
      let argcCount ← get32
      let _argv ← many readArg argcCount.toInt.toNat
      return [MPIFunction.initializeApplication]) (putArgv argv ++ s) s ↔ True
    rw [takes_argv]
    exact iff_of_true (takes_pure.mpr rfl) trivial
  | gather commrank sendcount sendtype recvcount recvtype root comm
  | scatterv commrank commsize sendcounts displs sendtype recvcount recvtype root comm =>
    cases decEq commrank root with
    | isTrue h | isFalse h =>
      simp [-bind_pure_comp, Call.function, Call.encode, Call.Aligned, dispatch, h]
  | scatter commrank sendcount sendtype recvcount recvtype root comm =>
    cases decEq commrank root with
    | isTrue h => simp [-bind_pure_comp, Call.function, Call.encode, Call.Aligned, dispatch, h, eq_comm]
    | isFalse h => simp [-bind_pure_comp, Call.function, Call.encode, Call.Aligned, dispatch, h]
  | gatherv commrank commsize sendcount sendtype recvcounts displs recvtype root comm =>
    cases decEq commrank root with
    | isTrue h => simp [-bind_pure_comp, Call.function, Call.encode, Call.Aligned, dispatch, h]
    | isFalse h =>
      -- the type of the receive buffers is read all the same
      have htype (f : BitVec 16 → List MPIFunction) : ¬Takes (do
          let recvType ← get16
          throwIf (¬sendtype = recvType) "MPI Gatherv send_type != recv_type"
          return f recvType) s s :=
        ((consumes_get 2).bind fun _ => Forward.consumes).not_takes (by decide) s
      simp [-bind_pure_comp, Call.function, Call.encode, Call.Aligned, dispatch, h, htype]
  | testall count requests flag statuses =>
    cases decEq flag 0#32 with
    | isTrue h => simp [-bind_pure_comp, Call.function, Call.encode, Call.Aligned, dispatch, h, takes_getStatuses_self]
    | isFalse h => simp [-bind_pure_comp, Call.function, Call.encode, Call.Aligned, dispatch, h]
  | _ => simp [-bind_pure_comp, Call.function, Call.encode, Call.Aligned, dispatch]

/-! ## 5. The loop -/

theorem exists_skips_if {x : Trace Unit} {n : Nat} (hx : Skips x n) (c : Prop) [Decidable c] :
    ∃ m ≤ n, Skips (if c then x else pure ()) m := by
  split
  · exact ⟨n, le_rfl, hx⟩
  · exact ⟨0, Nat.zero_le n, skips_pure ()⟩

/-- Whatever is stored in the 26 bytes after the mask, the reader goes to their end. -/
theorem reads_startRead (configMask : BitVec 8) {stamps : List Byte} (hlen : stamps.length = 26) :
    Reads startRead (put8 configMask ++ stamps) configMask := by
  intro s
  have htime : Skips getTime 12 :=
    (skips_get 2).bind fun _ => (skips_get 4).bind fun _ => (skips_get 2).bind fun _ =>
      (skips_get 4).map _
  obtain ⟨n₁, hn₁, h₁⟩ := exists_skips_if (x := discard get16) ((skips_get 2).map _)
    (configMask &&& threadidMask ≠ 0)
  obtain ⟨n₂, hn₂, h₂⟩ := exists_skips_if htime (configMask &&& timeCpu ≠ 0)
  obtain ⟨n₃, hn₃, h₃⟩ := exists_skips_if htime (configMask &&& timeWall ≠ 0)
  have hv : 26 ≤ (stamps ++ s).length := by rw [length_append]; omega
  rw [append_assoc]
  unfold startRead
  rw [(reads_get8 configMask).bind_eq]
  obtain ⟨a₁, e₁⟩ := h₁ (stamps ++ s) (by omega)
  obtain ⟨a₂, e₂⟩ := h₂ ((stamps ++ s).drop n₁) (by rw [length_drop]; omega)
  obtain ⟨a₃, e₃⟩ := h₃ (((stamps ++ s).drop n₁).drop n₂) (by simp only [length_drop]; omega)
  refine bind_eq_ok.mpr ⟨_, _, rfl, bind_eq_ok.mpr ⟨a₁, _, e₁, bind_eq_ok.mpr ⟨a₂, _, e₂,
    bind_eq_ok.mpr ⟨a₃, _, e₃, bind_eq_ok.mpr ⟨_, _, rfl, bind_eq_ok.mpr ⟨_, _, rfl, ?_⟩⟩⟩⟩⟩⟩
  show Except.ok (configMask, _) = Except.ok (configMask, s)
  simp only [length_drop, drop_drop]
  rw [drop_left' (by omega)]

theorem Record.code_lt (r : Record) : r.code < endOfStream := r.call.function.code_lt

variable {r : Record} {fuel : Nat}

theorem readCase_eq_ok {s u : List Byte} {turn : Dispatch} :
    readCase r.code r.configMask s = .ok (turn, u) ↔ ∃ queued,
      dispatch r.configMask r.call.function s = .ok (queued, u) ∧ turn = ⟨r.code, queued, u⟩ := by
  unfold readCase Record.code
  rw [DumpiFunction.of?_code, bind_eq_ok]
  constructor
  · rintro ⟨queued, v, hv, h⟩
    cases h
    exact ⟨queued, hv, rfl⟩
  · rintro ⟨queued, hv, rfl⟩
    exact ⟨queued, u, hv, rfl⟩

/-- What the loop returns, as pairs of the code and the file after the case. -/
def LoopReads (fuel : Nat) (r : Record) (s : List Byte) (turns : List (BitVec 16 × List Byte)) :
    Prop :=
  ∃ ds t, readFunctions fuel r.code r.configMask s = .ok (ds, t) ∧
    ds.map (fun turn => (turn.mpiFunction, turn.rest)) = turns

theorem readFunctions_succ {s v : List Byte} {turn : Dispatch}
    (h : readCase r.code r.configMask s = .ok (turn, v)) :
    readFunctions (fuel + 1) r.code r.configMask s = (do
      let mpiFunction ← findNextFunction
      if mpiFunction < endOfStream then do
        let configMask ← startRead
        let turns ← readFunctions fuel mpiFunction configMask
        return turn :: turns
      else return [turn] : Trace _) v := by
  rw [readFunctions, bind_apply, h]
  rfl

/-- The first turn that the loop returns is the one of the record it starts with. -/
theorem LoopReads.takes {s u : List Byte} {turns : List (BitVec 16 × List Byte)}
    (h : LoopReads (fuel + 1) r s ((r.code, u) :: turns)) :
    Takes (dispatch r.configMask r.call.function) s u := by
  obtain ⟨ds, t, hds, hmap⟩ := h
  obtain ⟨turn, v, hcase, hrest⟩ := bind_eq_ok.mp hds
  obtain ⟨queued, hv, rfl⟩ := readCase_eq_ok.mp hcase
  obtain ⟨next, w, hw, hnext⟩ := bind_eq_ok.mp hrest
  have hhead : ∃ ds', ds = ⟨r.code, queued, v⟩ :: ds' := by
    split at hnext
    · obtain ⟨mask, x, hx, hloop⟩ := bind_eq_ok.mp hnext
      obtain ⟨ds', y, hy, hdone⟩ := bind_eq_ok.mp hloop
      cases hdone
      exact ⟨ds', rfl⟩
    · cases hnext
      exact ⟨[], rfl⟩
  obtain ⟨ds', rfl⟩ := hhead
  rw [map_cons, List.cons.injEq, Prod.mk.injEq] at hmap
  rw [← hmap.1.2]
  exact ⟨queued, hv⟩

theorem loopReads_last {s footer : List Byte} :
    LoopReads (fuel + 1) r s [(r.code, put16 endOfStream ++ footer)] ↔
      Takes (dispatch r.configMask r.call.function) s (put16 endOfStream ++ footer) := by
  constructor
  · exact LoopReads.takes
  · rintro ⟨queued, h⟩
    refine ⟨[⟨r.code, queued, _⟩], footer, ?_, rfl⟩
    rw [readFunctions_succ (readCase_eq_ok.mpr ⟨queued, h, rfl⟩), findNextFunction,
      (reads_get16 endOfStream).bind_eq, if_neg (BitVec.lt_irrefl _)]
    rfl

theorem loopReads_next {x : Record} {s u : List Byte} {turns : List (BitVec 16 × List Byte)} :
    LoopReads (fuel + 1) r s ((r.code, x.encode ++ u) :: turns) ↔
      Takes (dispatch r.configMask r.call.function) s (x.encode ++ u) ∧
        LoopReads fuel x (x.body ++ u) turns := by
  have hsucc {turn : Dispatch} (h : readCase r.code r.configMask s = .ok (turn, x.encode ++ u)) :
      readFunctions (fuel + 1) r.code r.configMask s = (do
        let turns ← readFunctions fuel x.code x.configMask
        return turn :: turns : Trace _) (x.body ++ u) := by
    have hencode : x.encode ++ u =
        put16 x.code ++ (put8 x.configMask ++ x.stamps.1 ++ (x.body ++ u)) := by
      simp only [Record.encode, append_assoc]
    rw [readFunctions_succ h, hencode, findNextFunction, (reads_get16 x.code).bind_eq, if_pos x.code_lt,
      (reads_startRead x.configMask x.stamps.2).bind_eq]
  constructor
  · intro h
    have htakes := h.takes
    obtain ⟨queued, hq⟩ := htakes
    obtain ⟨ds, t, hds, hmap⟩ := h
    rw [hsucc (readCase_eq_ok.mpr ⟨queued, hq, rfl⟩)] at hds
    obtain ⟨ds', t', hds', hdone⟩ := bind_eq_ok.mp hds
    cases hdone
    exact ⟨⟨queued, hq⟩, ds', t, hds', (List.cons.inj hmap).2⟩
  · rintro ⟨⟨queued, hq⟩, ds, t, hds, rfl⟩
    refine ⟨⟨r.code, queued, x.encode ++ u⟩ :: ds, t, ?_, rfl⟩
    rw [hsucc (readCase_eq_ok.mpr ⟨queued, hq, rfl⟩)]
    exact bind_eq_ok.mpr ⟨ds, t, hds, rfl⟩

theorem loopReads_iff {records : List Record} (footer : List Byte) (hfuel : records.length < fuel) :
    LoopReads fuel r (r.body ++ putRecords records footer) (expected footer (r :: records)) ↔
      ∀ x ∈ r :: records, x.Aligned := by
  induction records generalizing r fuel with
  | nil =>
    cases fuel with
    | zero => exact absurd hfuel (Nat.lt_irrefl 0)
    | succ fuel =>
      rw [forall_mem_singleton]
      exact loopReads_last.trans (takes_dispatch r.configMask r.call _)
  | cons x records ih =>
    cases fuel with
    | zero => exact absurd hfuel (Nat.not_lt_zero _)
    | succ fuel =>
      have hput : putRecords (x :: records) footer = x.encode ++ putRecords records footer := by
        simp only [putRecords, flatMap_cons, append_assoc]
      rw [forall_mem_cons, ← ih (Nat.lt_of_succ_lt_succ hfuel)]
      show LoopReads (fuel + 1) r _ ((r.code, putRecords (x :: records) footer) :: _) ↔ _
      rw [hput, loopReads_next]
      exact and_congr_left fun _ => takes_dispatch r.configMask r.call _

/-! ## 6. A trace -/

theorem passes_handleHeader (header : Header) : Passes handleHeader header.1 :=
  (((skips_get 2).many 4).bind fun _ => (skips_get 4).bind fun _ => (skips_get 4).map _).passes
    header.2

theorem length_le_putRecords (records : List Record) (footer : List Byte) :
    records.length ≤ (putRecords records footer).length := by
  induction records with
  | nil => exact Nat.zero_le _
  | cons r records ih =>
    have hcode : 0 < r.encode.length := by
      simp only [Record.encode, put16, length_append, length_put]
      omega
    simp only [putRecords, flatMap_cons, append_assoc, length_append, length_cons] at ih ⊢
    omega

theorem readTrace_apply (fuel : Nat) (header : Header) (code : BitVec 16) (s : List Byte) :
    readTrace fuel (header.1 ++ (put16 code ++ s)) = (if code < endOfStream then do
      let configMask ← startRead
      readFunctions fuel code configMask
    else return [] : Trace _) s := by
  obtain ⟨_, h⟩ := passes_handleHeader header (put16 code ++ s)
  rw [readTrace, bind_apply, h]
  exact (reads_get16 code).bind_eq (fun mpiFunction => (if mpiFunction < endOfStream then do
    let configMask ← startRead
    readFunctions fuel mpiFunction configMask
  else return [] : Trace _)) s

theorem parseTrace_eq_ok {file : List Byte} {turns : List Dispatch} :
    parseTrace file = .ok turns ↔ ∃ t, readTrace file.length file = .ok (turns, t) := by
  unfold parseTrace
  cases readTrace file.length file with
  | error e =>
    constructor
    · intro h
      cases h
    · rintro ⟨_, h⟩
      cases h
  | ok p =>
    constructor
    · intro h
      cases h
      exact ⟨p.2, rfl⟩
    · rintro ⟨_, h⟩
      cases h
      rfl

/-- The reader keeps to the layout exactly on the traces whose records all have what
it relies on. -/
theorem alignedTrace_iff (header : Header) (records : List Record) (footer : List Byte) :
    AlignedTrace header records footer ↔ ∀ r ∈ records, r.Aligned := by
  unfold AlignedTrace traceFile
  simp only [parseTrace_eq_ok]
  cases records with
  | nil =>
    have hput : putRecords [] footer = put16 endOfStream ++ footer := rfl
    rw [hput, readTrace_apply, if_neg (BitVec.lt_irrefl _)]
    exact iff_of_true ⟨[], ⟨footer, rfl⟩, rfl⟩ fun _ h => absurd h List.not_mem_nil
  | cons r records =>
    have hput : putRecords (r :: records) footer =
        put16 r.code ++ (put8 r.configMask ++ r.stamps.1 ++
          (r.body ++ putRecords records footer)) := by
      simp only [putRecords, Record.encode, List.flatMap_cons, List.append_assoc]
    have hfuel : records.length < (header.1 ++ putRecords (r :: records) footer).length := by
      rw [List.length_append]
      exact (length_le_putRecords (r :: records) footer).trans (Nat.le_add_left _ _)
    rw [← loopReads_iff footer hfuel, hput, readTrace_apply, if_pos r.code_lt,
      (reads_startRead r.configMask r.stamps.2).bind_eq]
    constructor
    · rintro ⟨turns, ⟨t, hturns⟩, hmap⟩
      exact ⟨turns, t, hturns, hmap⟩
    · rintro ⟨turns, t, hturns, hmap⟩
      exact ⟨turns, ⟨t, hturns⟩, hmap⟩

/-- A rank that is not the root gathers nothing: the reader takes the end of the stream
for a type, which stops it here. -/
theorem gatherv_off_root_not_aligned : ¬AlignedTrace ⟨List.replicate 16 0, rfl⟩
    [⟨0, ⟨List.replicate 26 0, rfl⟩,
      .gatherv 1 2 4 9 ⟨[], by decide⟩ ⟨[], by decide⟩ 0 0 2⟩] [] := by
  rintro ⟨turns, hturns, _⟩
  have hthrow : parseTrace (traceFile ⟨List.replicate 16 0, rfl⟩
      [⟨0, ⟨List.replicate 26 0, rfl⟩,
        .gatherv 1 2 4 9 ⟨[], by decide⟩ ⟨[], by decide⟩ 0 0 2⟩] []) =
      .error (.runtimeError "MPI Gatherv send_type != recv_type") := by
    rfl
  rw [hthrow] at hturns
  cases hturns

end MoeJit.Dumpi
