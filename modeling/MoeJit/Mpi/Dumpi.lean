import MoeJit.Lib.ByteReader

/-!
# DUMPI traces

The reader of the binary trace of a rank. A trace is a header and records: a function
code, a mask with 26 bytes of time stamps, and the fields of the function, which a
case of its own reads one by one.

The operations that the cases queue keep the arguments the case has read. The delays
between them, which the time stamps give, and the lines of the log are left out.
-/

namespace MoeJit.Dumpi

open Bytes ByteReader

/-- What stops the reader. A read past the end of the file leaves its result without a
value, and an index outside a vector is undefined as well. -/
inductive Failure
  | undefined
  | runtimeError (what : String)
  deriving DecidableEq, Repr

instance : EndOfInput Failure := ⟨.undefined⟩

abbrev Trace := Reader Failure

def get32 : Trace (BitVec 32) := get 4
def get16 : Trace (BitVec 16) := get 2
def get8 : Trace (BitVec 8) := get 1

def get32arr : Trace (List (BitVec 32)) := do
  let count ← get32
  many get32 count.toNat

def handleHeader : Trace Unit := do
  let _magicHead ← many get16 4
  let _cpuTimeBias ← get32
  let _wallTimeBias ← get32

def findNextFunction : Trace (BitVec 16) := get16

def threadidMask : BitVec 8 := 1 <<< 6
def timeCpu : BitVec 8 := 1 <<< 2
def timeWall : BitVec 8 := 1 <<< 3

/-- Start and stop, each as seconds and nanoseconds. -/
def getTime : Trace Unit := do
  let _startSec ← get16
  let _startNsec ← get32
  let _stopSec ← get16
  let _stopNsec ← get32

def startRead : Trace (BitVec 8) := do
  let configMask ← get8
  let pos ← left
  (if configMask &&& threadidMask ≠ 0 then discard get16 else pure ())
  (if configMask &&& timeCpu ≠ 0 then getTime else pure ())
  (if configMask &&& timeWall ≠ 0 then getTime else pure ())
  let tellg ← left
  seek (26 - (pos - tellg))
  return configMask

structure DumpiStatus where
  bytes : BitVec 32
  source : BitVec 32
  tag : BitVec 32
  cancelled : BitVec 8
  error : BitVec 8
  deriving DecidableEq, Repr

def getStatus : Trace DumpiStatus := do
  let bytes ← get32
  let source ← get32
  let cancelled ← get8
  let error ← get8
  let tag ← get32
  return { bytes, source, tag, cancelled, error }

def getStatuses (configMask : BitVec 8) : Trace (List DumpiStatus) :=
  if configMask ≠ 0 then do
    let count ← get32
    many getStatus count.toInt.toNat
  else pure []

/-- The functions with a case. -/
inductive DumpiFunction
  | send | recv | getCount | rsend | isend | irecv | wait | waitall | testall | waitsome
  | sendrecv | sendrecvReplace | barrier | bcast | gather | gatherv | scatter | scatterv
  | allgather | allgatherv | alltoall | alltoallv | reduce | allreduce | reduceScatter
  | commSize | commRank | attrGet | getVersion | wtime | init | finalize | initialized
  | allocMem | freeMem
  deriving DecidableEq, Repr

/-- The value in the enumeration. -/
def DumpiFunction.code : DumpiFunction → BitVec 16
  | send => 0 | recv => 1 | getCount => 2 | rsend => 5 | isend => 8 | irecv => 12 | wait => 13
  | waitall => 18 | testall => 19 | waitsome => 20 | sendrecv => 33 | sendrecvReplace => 34
  | barrier => 52 | bcast => 53 | gather => 54 | gatherv => 55 | scatter => 56 | scatterv => 57
  | allgather => 58 | allgatherv => 59 | alltoall => 60 | alltoallv => 61 | reduce => 62
  | allreduce => 65 | reduceScatter => 66 | commSize => 81 | commRank => 82 | attrGet => 96
  | getVersion => 115 | wtime => 122 | init => 124 | finalize => 125 | initialized => 126
  | allocMem => 195 | freeMem => 203

def supported : List DumpiFunction :=
  [.send, .recv, .getCount, .rsend, .isend, .irecv, .wait, .waitall, .testall, .waitsome,
   .sendrecv, .sendrecvReplace, .barrier, .bcast, .gather, .gatherv, .scatter, .scatterv,
   .allgather, .allgatherv, .alltoall, .alltoallv, .reduce, .allreduce, .reduceScatter,
   .commSize, .commRank, .attrGet, .getVersion, .wtime, .init, .finalize, .initialized,
   .allocMem, .freeMem]

def endOfStream : BitVec 16 := 293

/-- The function that the switch goes to. -/
def DumpiFunction.of? (mpiFunction : BitVec 16) : Option DumpiFunction :=
  supported.find? fun f => f.code = mpiFunction

theorem DumpiFunction.of?_code (f : DumpiFunction) : of? f.code = some f := by
  cases f <;> decide

theorem DumpiFunction.code_of?_some {mpiFunction : BitVec 16} {f : DumpiFunction}
    (h : of? mpiFunction = some f) : f.code = mpiFunction := by
  unfold of? at h
  have hcode := List.find?_some h
  exact of_decide_eq_true hcode

theorem DumpiFunction.code_lt (f : DumpiFunction) : f.code < endOfStream := by
  cases f <;> decide

/-- The operations on the application that a case queues, with their arguments. -/
inductive MPIFunction
  | initializeApplication
  | checkSize (comm : BitVec 16) (size : BitVec 32)
  | checkRank (comm : BitVec 16) (rank : BitVec 32)
  | irecv (comm datatype : BitVec 16) (source request count : BitVec 32)
  | isend (comm datatype : BitVec 16) (dest request count : BitVec 32)
  | send (comm datatype : BitVec 16) (dest count : BitVec 32)
  | recv (comm datatype : BitVec 16) (source count : BitVec 32)
  | waitall (requests : List (BitVec 32))
  | wait (request : BitVec 32)
  | barrier (comm : BitVec 16)
  | nothing
  | allReduce (comm datatype : BitVec 16) (count : BitVec 32)
  | reduce (comm datatype : BitVec 16) (count root : BitVec 32)
  | broadcast (comm datatype : BitVec 16) (count root : BitVec 32)
  | allToAll (comm : BitVec 16) (sendCount : BitVec 32) (sendType : BitVec 16)
      (recvCount : BitVec 32) (recvType : BitVec 16)
  | allToAllv (comm : BitVec 16) (sendCounts : List (BitVec 32)) (sendType : BitVec 16)
      (recvCounts : List (BitVec 32)) (recvType : BitVec 16)
  | allGather (comm : BitVec 16) (sendCount : BitVec 32) (sendType : BitVec 16)
  | allGatherv (comm sendType : BitVec 16) (recvCounts : List (BitVec 32))
  | gather (comm : BitVec 16) (root sendCount : BitVec 32) (sendType : BitVec 16)
  | gatherv (comm : BitVec 16) (commRank root : BitVec 32) (sendType : BitVec 16)
      (sendCount : BitVec 32) (recvCounts : List (BitVec 32))
  | checkInitialized (result : BitVec 32)
  | sendRecv (comm : BitVec 16) (sendCount : BitVec 32) (sendType : BitVec 16)
      (dest recvCount source : BitVec 32) (recvType : BitVec 16)
  | scatter (comm : BitVec 16) (root recvCount : BitVec 32) (recvType : BitVec 16)
  | scatterv (comm : BitVec 16) (commRank root recvCount : BitVec 32) (recvType : BitVec 16)
      (sendCounts : List (BitVec 32))
  | reduceScatter (comm : BitVec 16) (recvCounts : List (BitVec 32)) (datatype : BitVec 16)
  | finalize
  deriving DecidableEq, Repr

/-- The exception of a case whose fields do not fit together. -/
def throwIf (c : Prop) [Decidable c] (what : String) : Trace Unit := fun s =>
  if c then .error (.runtimeError what) else .ok ((), s)

/-- The element of a vector at a signed index. -/
def element? (xs : List (BitVec 32)) (i : BitVec 32) : Option (BitVec 32) :=
  if 0 ≤ i.toInt then xs[i.toNat]? else none

/-- `xs[i]`, which is undefined outside the vector. -/
def element (xs : List (BitVec 32)) (i : BitVec 32) : Trace (BitVec 32) := fun s =>
  match element? xs i with
  | some x => .ok (x, s)
  | none => .error .undefined

def readArg : Trace (List Byte) := do
  let argLen ← get32
  raw argLen.toNat

/-- The fields that follow the root of a gather or a scatter at the root itself. -/
def getRooted (type : BitVec 16) (what : String) : Trace Unit := do
  let _count ← get32
  let type' ← get16
  throwIf (type ≠ type') what

/-- The cases of the switch. -/
def dispatch (configMask : BitVec 8) : DumpiFunction → Trace (List MPIFunction)
  | .init => do
    let argcCount ← get32
    let _argv ← many readArg argcCount.toInt.toNat
    return [.initializeApplication]
  | .commSize => do
    let comm ← get16
    let size ← get32
    return [.checkSize comm size]
  | .commRank => do
    let comm ← get16
    let rank ← get32
    return [.checkRank comm rank]
  | .irecv => do
    let count ← get32
    let datatype ← get16
    let source ← get32
    let _tag ← get32
    let comm ← get16
    let request ← get32
    return [.irecv comm datatype source request count]
  | .isend => do
    let count ← get32
    let datatype ← get16
    let dest ← get32
    let _tag ← get32
    let comm ← get16
    let request ← get32
    return [.isend comm datatype dest request count]
  | .send => do
    let count ← get32
    let datatype ← get16
    let dest ← get32
    let _tag ← get32
    let comm ← get16
    return [.send comm datatype dest count]
  | .recv => do
    let count ← get32
    let datatype ← get16
    let source ← get32
    let _tag ← get32
    let comm ← get16
    let _status ← getStatuses configMask
    return [.recv comm datatype source count]
  | .waitall => do
    let _count ← get32
    let requests ← get32arr
    let _statuses ← getStatuses configMask
    return [.waitall requests]
  | .waitsome => do
    let _count ← get32
    let requests ← get32arr
    let _outcount ← get32
    let _indices ← get32arr
    let _statuses ← getStatuses configMask
    return [.waitall requests]
  | .wait => do
    let request ← get32
    let _status ← getStatuses configMask
    return [.wait request]
  | .barrier => do
    let comm ← get16
    return [.barrier comm]
  | .wtime => return [.nothing]
  | .allreduce => do
    let count ← get32
    let datatype ← get16
    let _op ← get8
    let comm ← get16
    return [.allReduce comm datatype count]
  | .reduce => do
    let count ← get32
    let datatype ← get16
    let _op ← get8
    let root ← get32
    let comm ← get16
    return [.reduce comm datatype count root]
  | .bcast => do
    let count ← get32
    let datatype ← get16
    let root ← get32
    let comm ← get16
    return [.broadcast comm datatype count root]
  | .alltoall => do
    let sendCount ← get32
    let sendType ← get16
    let recvCount ← get32
    let recvType ← get16
    let comm ← get16
    throwIf (sendType ≠ recvType) "MPI Alltoall send_type != recv_type"
    throwIf (sendCount ≠ recvCount) "MPI Alltoall send_count != recv_count"
    return [.allToAll comm sendCount sendType recvCount recvType]
  | .alltoallv => do
    let _commSize ← get32
    let sendCounts ← get32arr
    let _sendDispls ← get32arr
    let sendType ← get16
    let recvCounts ← get32arr
    let _recvDispls ← get32arr
    let recvType ← get16
    let comm ← get16
    throwIf (sendType ≠ recvType) "MPI Alltoallv send_type != recv_type"
    return [.allToAllv comm sendCounts sendType recvCounts recvType]
  | .rsend => do
    let count ← get32
    let datatype ← get16
    let dest ← get32
    let _tag ← get32
    let comm ← get16
    return [.send comm datatype dest count]
  | .allgather => do
    let sendCount ← get32
    let sendType ← get16
    let recvCount ← get32
    let recvType ← get16
    let comm ← get16
    throwIf (sendType ≠ recvType) "MPI Allgather send_type != recv_type"
    throwIf (sendCount ≠ recvCount) "MPI Allgather send_count != recv_count"
    return [.allGather comm sendCount sendType]
  | .allgatherv => do
    let _commSize ← get32
    let _sendCount ← get32
    let sendType ← get16
    let recvCounts ← get32arr
    let _displs ← get32arr
    let recvType ← get16
    let comm ← get16
    throwIf (sendType ≠ recvType) "MPI Allgatherv send_type != recv_type"
    return [.allGatherv comm sendType recvCounts]
  | .gather => do
    let commRank ← get32
    let sendCount ← get32
    let sendType ← get16
    let root ← get32
    let comm ← get16
    (if commRank = root then getRooted sendType "MPI Gather send_type != recv_type"
      else pure ())
    return [.gather comm root sendCount sendType]
  | .gatherv => do
    let commRank ← get32
    let _commSize ← get32
    let sendCount ← get32
    let sendType ← get16
    let root ← get32
    let comm ← get16
    let recvCounts ← (if commRank = root then do
        let recvCounts ← get32arr
        let _displs ← get32arr
        let recvCount ← element recvCounts commRank
        throwIf (sendCount ≠ recvCount) "MPI Gatherv send_count != recv_count"
        return recvCounts
      else pure [])
    -- also off the root
    let recvType ← get16
    throwIf (sendType ≠ recvType) "MPI Gatherv send_type != recv_type"
    return [.gatherv comm commRank root sendType sendCount recvCounts]
  | .initialized => do
    let result ← get32
    return [.checkInitialized result]
  | .testall => do
    let _count ← get32
    let requests ← get32arr
    let _flag ← get32
    let _statuses ← getStatuses configMask
    return [.waitall requests]
  | .sendrecv => do
    let sendCount ← get32
    let sendType ← get16
    let dest ← get32
    let _sendTag ← get32
    let recvCount ← get32
    let recvType ← get16
    let source ← get32
    let _recvTag ← get32
    let comm ← get16
    let _status ← getStatuses configMask
    return [.sendRecv comm sendCount sendType dest recvCount source recvType]
  | .sendrecvReplace => do
    let count ← get32
    let datatype ← get16
    let dest ← get32
    let _sendTag ← get32
    let source ← get32
    let _recvTag ← get32
    let comm ← get16
    let _status ← getStatuses configMask
    return [.sendRecv comm count datatype dest count source datatype]
  | .scatter => do
    let commRank ← get32
    let recvCount ← get32
    let recvType ← get16
    let root ← get32
    let comm ← get16
    (if commRank = root then getRooted recvType "MPI Scatter send_type != recv_type"
      else pure ())
    return [.scatter comm root recvCount recvType]
  | .scatterv => do
    let commRank ← get32
    let _commSize ← get32
    let sendType ← get16
    let recvCount ← get32
    let recvType ← get16
    let root ← get32
    let comm ← get16
    throwIf (sendType ≠ recvType) "MPI Scatterv send_type != recv_type"
    let sendCounts ← (if commRank = root then do
        let sendCounts ← get32arr
        let _displs ← get32arr
        return sendCounts
      else pure [])
    return [.scatterv comm commRank root recvCount recvType sendCounts]
  | .reduceScatter => do
    let _commSize ← get32
    let recvCounts ← get32arr
    let datatype ← get16
    let _op ← get8
    let comm ← get16
    return [.reduceScatter comm recvCounts datatype]
  | .getCount => do
    let _status ← getStatuses configMask
    let _datatype ← get16
    let _count ← get32
    return []
  | .attrGet => do
    let _comm ← get16
    let _key ← get32
    let _flag ← get32
    return []
  | .allocMem => do
    let _size ← get32
    let _info ← get16
    return []
  | .freeMem => return []
  | .getVersion => do
    let _version ← get32
    let _subversion ← get32
    return []
  | .finalize => return [.finalize]

/-- One turn of the loop: the code, what it queued, and the rest of the file after it. -/
structure Dispatch where
  mpiFunction : BitVec 16
  queued : List MPIFunction
  rest : List Byte
  deriving DecidableEq, Repr

def readCase (mpiFunction : BitVec 16) (configMask : BitVec 8) : Trace Dispatch := do
  let queued ← (match DumpiFunction.of? mpiFunction with
    | some f => dispatch configMask f
    | none => throw (.runtimeError "No such mpi function!!!"))
  let rest ← StateT.get
  return { mpiFunction, queued, rest }

/-- The loop. Each turn takes bytes, so that the length of the file bounds their number. -/
def readFunctions : Nat → BitVec 16 → BitVec 8 → Trace (List Dispatch)
  | 0, _, _ => throw .undefined
  | fuel + 1, mpiFunction, configMask => do
    let turn ← readCase mpiFunction configMask
    let mpiFunction ← findNextFunction
    if mpiFunction < endOfStream then do
      let configMask ← startRead
      let turns ← readFunctions fuel mpiFunction configMask
      return turn :: turns
    else return [turn]

/-- The first `startRead` comes before the loop and also for an empty trace, where
nothing depends on it. -/
def readTrace (fuel : Nat) : Trace (List Dispatch) := do
  handleHeader
  let mpiFunction ← findNextFunction
  if mpiFunction < endOfStream then do
    let configMask ← startRead
    readFunctions fuel mpiFunction configMask
  else return []

def parseTrace (file : List Byte) : Except Failure (List Dispatch) :=
  (readTrace file.length file).map Prod.fst

section Forward

instance : Forward get8 := forward_get 1
instance : Forward get16 := forward_get 2
instance : Forward get32 := forward_get 4

instance : Forward get32arr := forward_bind
instance : Forward getTime := forward_bind
instance : Forward handleHeader := forward_bind
instance : Forward startRead := forward_bind
instance : Forward getStatus := forward_bind
instance : Forward readArg := forward_bind

instance (configMask : BitVec 8) : Forward (getStatuses configMask) := forward_ite

instance (c : Prop) [Decidable c] (what : String) : Forward (throwIf c what) := by
  constructor
  rintro s t ⟨_, h⟩
  unfold throwIf at h
  split at h
  · cases h
  · cases h
    exact (Nat.zero_add _).le

instance (xs : List (BitVec 32)) (i : BitVec 32) : Forward (element xs i) := by
  constructor
  rintro s t ⟨_, h⟩
  unfold element at h
  split at h
  · cases h
    exact (Nat.zero_add _).le
  · cases h

instance (type : BitVec 16) (what : String) : Forward (getRooted type what) := forward_bind

set_option synthInstance.maxSize 400 in
/-- A case of the switch only reads on. -/
instance (configMask : BitVec 8) (f : DumpiFunction) : Forward (dispatch configMask f) := by
  cases f <;> (unfold dispatch; infer_instance)

instance (mpiFunction : BitVec 16) (configMask : BitVec 8) :
    Forward (readCase mpiFunction configMask) := by
  unfold readCase
  split
  · infer_instance
  · infer_instance

end Forward

end MoeJit.Dumpi
