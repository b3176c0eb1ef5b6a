import MoeJit.Lte.DataField

/-!
# The sender of an acknowledged-mode bearer

SDUs wait in `txonBuffer`. At a transmit opportunity the entity sends a STATUS PDU, or a PDU of
`retxBuffer` once more, or a new PDU, which is kept in `txedBuffer`. Both of these buffers have a
slot for each of the 1024 sequence numbers. A STATUS PDU that is received empties the slots of what
it acknowledges, and moves PDUs from `txedBuffer` to `retxBuffer`, as does the timer that waits for
one.

There is no result where an assertion fails or what is read is not there. That two numbers have one
base where they are compared is not checked: a state that is reached has one base for all of them.
-/

namespace MoeJit.Lte

/-- What the receiving side of the entity decides about a STATUS PDU. `rxonBuffer` tells of a PDU
whether it is complete. -/
structure Receiver where
  statusPduRequested : Bool
  statusPduBufferSize : BitVec 32
  statusProhibitTimerRunning : Bool
  vrR : SequenceNumber10
  vrMs : SequenceNumber10
  rxonBuffer : Nat → Option Bool

structure LteRlcAm where
  txonBuffer : List Sdu
  txonBufferSize : BitVec 32
  maxTxBufferSize : BitVec 32
  retxBuffer : Nat → Option Pdu
  retxBufferSize : BitVec 32
  txedBuffer : Nat → Option Pdu
  txedBufferSize : BitVec 32
  receiver : Receiver
  vtA : SequenceNumber10
  vtMs : SequenceNumber10
  vtS : SequenceNumber10
  pollSn : SequenceNumber10
  pduWithoutPoll : BitVec 32
  byteWithoutPoll : BitVec 32
  pollPdu : Nat
  pollByte : Nat
  pollRetransmitTimerRunning : Bool
  pollRetransmitTimerJustExpired : Bool
  txOpportunityForRetxAlwaysBigEnough : Bool

def windowSize : Nat := 512

/-- The slot of a sequence number is given another content. -/
def setSlot (buffer : Nat → Option Pdu) (sn : Nat) (pdu : Option Pdu) : Nat → Option Pdu :=
  fun i => if i = sn then pdu else buffer i

@[simp] theorem setSlot_self (buffer : Nat → Option Pdu) (sn : Nat) (pdu : Option Pdu) :
    setSlot buffer sn pdu sn = pdu := if_pos rfl

theorem setSlot_of_ne {i sn : Nat} (h : i ≠ sn) (buffer : Nat → Option Pdu) (pdu : Option Pdu) :
    setSlot buffer sn pdu i = buffer i := if_neg h

namespace LteRlcAm

/-- The constructor, with the size of its buffer. -/
def initial (maxTxBufferSize : BitVec 32) (txOpportunityForRetxAlwaysBigEnough : Bool) :
    LteRlcAm where
  txonBuffer := []
  txonBufferSize := 0
  maxTxBufferSize
  retxBuffer := fun _ => none
  retxBufferSize := 0
  txedBuffer := fun _ => none
  txedBufferSize := 0
  receiver := {
    statusPduRequested := false
    statusPduBufferSize := 0
    statusProhibitTimerRunning := false
    vrR := .ofValue 0
    vrMs := .ofValue 0
    rxonBuffer := fun _ => none }
  vtA := .ofValue 0
  vtMs := (SequenceNumber10.ofValue 0).add windowSize
  vtS := .ofValue 0
  pollSn := .ofValue 0
  pduWithoutPoll := 0
  byteWithoutPoll := 0
  pollPdu := 1
  pollByte := 50
  pollRetransmitTimerRunning := false
  pollRetransmitTimerJustExpired := false
  txOpportunityForRetxAlwaysBigEnough

/-- `DoTransmitPdcpPdu`. -/
def doTransmitPdcpPdu (rlc : LteRlcAm) (p : List Bytes.Byte) : LteRlcAm :=
  if rlc.txonBufferSize + sizeOf p ≤ rlc.maxTxBufferSize ∨ rlc.maxTxBufferSize = 0 then
    { rlc with
      txonBuffer := rlc.txonBuffer ++ [⟨p, .fullSdu⟩]
      txonBufferSize := rlc.txonBufferSize + sizeOf p }
  else rlc

/-! ### The STATUS PDU -/

def isComplete (receiver : Receiver) (sn : SequenceNumber10) : Bool :=
  receiver.rxonBuffer sn.value = some true

/-- The NACKs, whose rounds are counted down, and the number at the end of the loop. -/
def pushNacks (receiver : Receiver) (bytes : Nat) :
    Nat → SequenceNumber10 → LteRlcAmHeader → Option (SequenceNumber10 × LteRlcAmHeader)
  | 0, _, _ => none
  | rounds + 1, sn, header =>
    if sn.lt receiver.vrMs then
      if header.oneMoreNackWouldFitIn bytes then
        pushNacks receiver bytes rounds sn.succ
          (if isComplete receiver sn then header else header.pushNack sn.value)
      else some (sn, header)
    else some (sn, header)

/-- The number of the next PDU that was not received. -/
def findAckSn (receiver : Receiver) : Nat → SequenceNumber10 → Option SequenceNumber10
  | 0, _ => none
  | rounds + 1, sn =>
    if sn.lt receiver.vrMs && isComplete receiver sn then findAckSn receiver rounds sn.succ
    else some sn

def buildStatusPdu (receiver : Receiver) (bytes : Nat) : Option Pdu := do
  let header := LteRlcAmHeader.initial.setControlPdu statusPdu
  -- the room is converted to 16 bits
  let (sn, header) ← pushNacks receiver (bytes % 65536) 1025 receiver.vrR header
  let ackSn ← findAckSn receiver 1025 sn
  if ackSn.le receiver.vrMs then
    LteRlcAmHeader.addTo { header with ackSn := ackSn } []
  else none

/-! ### Data PDUs -/

/-- The polling bit, for a reason to poll. -/
def poll (rlc : LteRlcAm) (reason : Bool) (header : LteRlcAmHeader) : LteRlcAm × LteRlcAmHeader :=
  if reason then
    ({ rlc with
        pollRetransmitTimerJustExpired := false
        pduWithoutPoll := 0
        byteWithoutPoll := 0
        pollSn := rlc.vtS.sub 1
        pollRetransmitTimerRunning := true }, header.setPollingBit 1)
  else (rlc, header.setPollingBit 0)

section Poll

variable (rlc : LteRlcAm) (reason : Bool) (h : LteRlcAmHeader)

@[simp] theorem poll_retxBuffer : (rlc.poll reason h).1.retxBuffer = rlc.retxBuffer := by
  cases reason <;> rfl

@[simp] theorem poll_retxBufferSize :
    (rlc.poll reason h).1.retxBufferSize = rlc.retxBufferSize := by
  cases reason <;> rfl

@[simp] theorem poll_vtA : (rlc.poll reason h).1.vtA = rlc.vtA := by
  cases reason <;> rfl

@[simp] theorem poll_vtS : (rlc.poll reason h).1.vtS = rlc.vtS := by
  cases reason <;> rfl

@[simp] theorem poll_vtMs : (rlc.poll reason h).1.vtMs = rlc.vtMs := by
  cases reason <;> rfl

@[simp] theorem poll_headerLength : (rlc.poll reason h).2.headerLength = h.headerLength := by
  cases reason <;> rfl

end Poll

/-- A PDU of `retxBuffer` is sent and moved to `txedBuffer`. -/
def sendAgain (rlc : LteRlcAm) (sn : Nat) (pdu : Pdu) : Option (LteRlcAm × Pdu) := do
  let (header, data) ← LteRlcAmHeader.removeHeader pdu
  let reason := (rlc.txonBuffer.isEmpty &&
      decide (rlc.retxBufferSize = sizeOf data + BitVec.ofNat 32 header.headerLength)) ||
    rlc.vtS.ge rlc.vtMs || rlc.pollRetransmitTimerJustExpired
  let polled := rlc.poll reason header
  let packet ← polled.2.addTo data
  return ({ polled.1 with
      txedBuffer := setSlot rlc.txedBuffer sn (some pdu)
      txedBufferSize := rlc.txedBufferSize + sizeOf pdu
      retxBufferSize := rlc.retxBufferSize - sizeOf pdu
      retxBuffer := setSlot rlc.retxBuffer sn none }, packet)

theorem exists_of_sendAgain {rlc rlc' : LteRlcAm} {sn : Nat} {pdu packet : Pdu}
    (hsend : rlc.sendAgain sn pdu = some (rlc', packet)) :
    ∃ header data reason, LteRlcAmHeader.removeHeader pdu = some (header, data) ∧
      (rlc.poll reason header).2.addTo data = some packet ∧
      rlc' = { (rlc.poll reason header).1 with
        txedBuffer := setSlot rlc.txedBuffer sn (some pdu)
        txedBufferSize := rlc.txedBufferSize + sizeOf pdu
        retxBufferSize := rlc.retxBufferSize - sizeOf pdu
        retxBuffer := setSlot rlc.retxBuffer sn none } := by
  simp only [sendAgain, Option.bind_eq_bind, Option.bind_eq_some_iff, Option.pure_def,
    Option.some.injEq, Prod.mk.injEq] at hsend
  obtain ⟨⟨header, data⟩, hremove, packet', hadd, rfl, rfl⟩ := hsend
  exact ⟨header, data, _, hremove, hadd, rfl⟩

/-- The loop over `retxBuffer`, whose rounds are counted down. -/
def retransmit (rlc : LteRlcAm) (bytes : Nat) :
    Nat → SequenceNumber10 → Option (LteRlcAm × Option Pdu)
  | 0, _ => none
  | rounds + 1, sn =>
    if sn.lt rlc.vtS then
      match rlc.retxBuffer sn.value with
      | some pdu =>
        if pdu.length ≤ bytes ∨ rlc.txOpportunityForRetxAlwaysBigEnough then
          (rlc.sendAgain sn.value pdu).map fun (rlc, packet) => (rlc, some packet)
        else some (rlc, none)
      | none => retransmit rlc bytes rounds sn.succ
    else none

/-- A new PDU. -/
def sendNew (rlc : LteRlcAm) (bytes : Nat) : Option (LteRlcAm × Option Pdu) :=
  match rlc.txonBuffer with
  | [] => some (rlc, none)
  | first :: rest => do
    let field := buildDataField (bytes - 4) 1 first rest (rlc.txonBufferSize - sizeOf first.bytes)
    let header := field.lengthIndicators.foldl LteRlcAmHeader.pushLengthIndicator
      (field.extensionBits.foldl LteRlcAmHeader.pushExtensionBit LteRlcAmHeader.initial.setDataPdu)
    let sn := rlc.vtS
    let rlc := { rlc with
      txonBuffer := field.buffer, txonBufferSize := field.bufferSize, vtS := rlc.vtS.succ }
    let header := { header with
      sequenceNumber := sn, resegmentationFlag := 0, lastSegmentFlag := 1, segmentOffset := 0 }
    if !(sn.lt rlc.vtMs) || !(sn.ge rlc.vtA) then none
    else
      let framingInfo ← field.framingInfo
      let header := header.setFramingInfo framingInfo
      let rlc := { rlc with
        pduWithoutPoll := rlc.pduWithoutPoll + 1
        byteWithoutPoll := rlc.byteWithoutPoll + sizeOf field.data }
      let reason := decide (rlc.pollPdu ≤ rlc.pduWithoutPoll.toNat) ||
        decide (rlc.pollByte ≤ rlc.byteWithoutPoll.toNat) ||
        (rlc.txonBuffer.isEmpty && decide (rlc.retxBufferSize = 0#32)) || rlc.vtS.ge rlc.vtMs ||
        rlc.pollRetransmitTimerJustExpired
      let polled := rlc.poll reason header
      let packet ← polled.2.addTo field.data
      return ({ polled.1 with
          txedBufferSize := rlc.txedBufferSize + sizeOf packet
          txedBuffer := setSlot rlc.txedBuffer sn.value (some packet) }, some packet)

theorem cases_of_sendNew {rlc rlc' : LteRlcAm} {bytes : Nat} {packet : Option Pdu}
    (hsend : rlc.sendNew bytes = some (rlc', packet)) :
    (rlc' = rlc ∧ packet = none) ∨ ∃ pdu, packet = some pdu ∧ rlc.vtS.lt rlc.vtMs = true ∧
        rlc'.txedBuffer = setSlot rlc.txedBuffer rlc.vtS.value (some pdu) ∧
        rlc'.txedBufferSize = rlc.txedBufferSize + sizeOf pdu ∧
        rlc'.retxBuffer = rlc.retxBuffer ∧ rlc'.retxBufferSize = rlc.retxBufferSize ∧
        rlc'.vtA = rlc.vtA ∧ rlc'.vtS = rlc.vtS.succ ∧ rlc'.vtMs = rlc.vtMs := by
  unfold sendNew at hsend
  split at hsend
  · cases hsend
    exact .inl ⟨rfl, rfl⟩
  next first rest _ =>
  dsimp only at hsend
  split at hsend
  · cases hsend
  next hwindow =>
  simp only [Option.bind_eq_bind, Option.bind_eq_some_iff, Option.pure_def, Option.some.injEq,
    Prod.mk.injEq] at hsend
  obtain ⟨framingInfo, -, pdu, -, rfl, rfl⟩ := hsend
  rw [Bool.or_eq_true, not_or, Bool.not_eq_true', Bool.not_eq_false] at hwindow
  refine .inr ⟨pdu, rfl, hwindow.1, ?_⟩
  simp

/-- `DoNotifyTxOpportunity`, with the PDU that is given to the MAC. -/
def doNotifyTxOpportunity (rlc : LteRlcAm) (bytes : Nat) : Option (LteRlcAm × Option Pdu) :=
  if bytes < 4 then none
  else if rlc.receiver.statusPduRequested && !rlc.receiver.statusProhibitTimerRunning then
    if bytes < rlc.receiver.statusPduBufferSize.toNat then none
    else
      (buildStatusPdu rlc.receiver bytes).map fun packet =>
        ({ rlc with receiver := { rlc.receiver with
            statusPduRequested := false
            statusPduBufferSize := 0
            statusProhibitTimerRunning := true } }, some packet)
  else if 0 < rlc.retxBufferSize then
    if rlc.vtA.lt rlc.vtS then rlc.retransmit bytes 1025 rlc.vtA else none
  else if 0 < rlc.txonBufferSize then
    if bytes < 7 then none
    else if !(rlc.vtS.le rlc.vtMs) then none
    else if rlc.vtS.value = rlc.vtMs.value then some (rlc, none)
    else rlc.sendNew bytes
  else some (rlc, none)

theorem doNotifyTxOpportunity_cases {rlc rlc' : LteRlcAm} {bytes : Nat} {packet : Option Pdu}
    (hsend : rlc.doNotifyTxOpportunity bytes = some (rlc', packet)) :
    4 ≤ bytes ∧
      (((rlc.receiver.statusPduRequested && !rlc.receiver.statusProhibitTimerRunning) = true ∧
          (∃ pdu, buildStatusPdu rlc.receiver bytes = some pdu ∧ packet = some pdu) ∧
          ∃ receiver, rlc' = { rlc with receiver }) ∨
        ((rlc.receiver.statusPduRequested && !rlc.receiver.statusProhibitTimerRunning) = false ∧
          ((0 < rlc.retxBufferSize ∧ rlc.vtA.lt rlc.vtS = true ∧
              rlc.retransmit bytes 1025 rlc.vtA = some (rlc', packet)) ∨
            (rlc.vtS.le rlc.vtMs = true ∧ rlc.vtS.value ≠ rlc.vtMs.value ∧
              rlc.sendNew bytes = some (rlc', packet)) ∨
            (rlc' = rlc ∧ packet = none)))) := by
  unfold doNotifyTxOpportunity at hsend
  split at hsend
  · cases hsend
  next hbytes =>
  refine ⟨Nat.not_lt.mp hbytes, ?_⟩
  split at hsend
  · next hstatus =>
    split at hsend
    · cases hsend
    · obtain ⟨pdu, hbuild, heq⟩ := Option.map_eq_some_iff.mp hsend
      cases heq
      exact .inl ⟨hstatus, ⟨pdu, hbuild, rfl⟩, _, rfl⟩
  next hstatus =>
  refine .inr ⟨Bool.not_eq_true _ ▸ hstatus, ?_⟩
  split at hsend
  · next hretx =>
    split at hsend
    · next hlt => exact .inl ⟨hretx, hlt, hsend⟩
    · cases hsend
  split at hsend
  · split at hsend
    · cases hsend
    split at hsend
    · cases hsend
    next hle =>
    split at hsend
    · cases hsend
      exact .inr (.inr ⟨rfl, rfl⟩)
    · next hne =>
      exact .inr (.inl ⟨by simpa using hle, hne, hsend⟩)
  · cases hsend
    exact .inr (.inr ⟨rfl, rfl⟩)

/-! ### STATUS PDUs that are received, and the timer -/

/-- `txedBuffer` to `retxBuffer`. -/
def moveToRetxBuffer (rlc : LteRlcAm) (sn : Nat) (pdu : Pdu) : LteRlcAm :=
  { rlc with
    retxBuffer := setSlot rlc.retxBuffer sn (some pdu)
    retxBufferSize := rlc.retxBufferSize + sizeOf pdu
    txedBufferSize := rlc.txedBufferSize - sizeOf pdu
    txedBuffer := setSlot rlc.txedBuffer sn none }

/-- What is done for a number that is not acknowledged. -/
def nacked (rlc : LteRlcAm) (sn : Nat) : Option LteRlcAm :=
  let rlc := match rlc.txedBuffer sn with
    | some pdu => rlc.moveToRetxBuffer sn pdu
    | none => rlc
  if (rlc.retxBuffer sn).isSome then some rlc else none

/-- What is done for a number that is acknowledged. -/
def acked (rlc : LteRlcAm) (sn : Nat) : Option LteRlcAm := do
  let rlc ← match rlc.txedBuffer sn with
    | some pdu =>
      if (rlc.retxBuffer sn).isSome then none
      else some { rlc with
        txedBufferSize := rlc.txedBufferSize - sizeOf pdu
        txedBuffer := setSlot rlc.txedBuffer sn none }
    | none => some rlc
  match rlc.retxBuffer sn with
  | some pdu => return { rlc with
      retxBufferSize := rlc.retxBufferSize - sizeOf pdu
      retxBuffer := setSlot rlc.retxBuffer sn none }
  | none => return rlc

/-- `VT(A)` is moved on, and everything is compared from there. -/
def incrementVtA (rlc : LteRlcAm) : LteRlcAm :=
  let vtA := rlc.vtA.succ
  let vtMs := vtA.add windowSize
  let base := vtA.setModulusBase vtA
  { rlc with
    vtA := base
    vtMs := vtMs.setModulusBase base
    vtS := rlc.vtS.setModulusBase base }

/-- What is done for a number before `ACK_SN`. The timer is cancelled at the number that was
polled. -/
def statusRound (header : LteRlcAmHeader) (rlc : LteRlcAm) (sn : SequenceNumber10) :
    Option LteRlcAm :=
  let rlc := { rlc with
    pollRetransmitTimerRunning := rlc.pollRetransmitTimerRunning && sn.value ≠ rlc.pollSn.value }
  if header.isNackPresent sn then rlc.nacked sn.value else rlc.acked sn.value

/-- The loop over the numbers before `ACK_SN`, whose rounds are counted down. -/
def statusLoop (header : LteRlcAmHeader) :
    Nat → LteRlcAm → SequenceNumber10 → SequenceNumber10 → Bool → Option LteRlcAm
  | 0, _, _, _, _ => none
  | rounds + 1, rlc, sn, ackSn, increment =>
    if sn.lt ackSn && sn.lt rlc.vtS then
      (statusRound header rlc sn).bind fun rlc =>
        if increment && !header.isNackPresent sn then
          let rlc := rlc.incrementVtA
          statusLoop header rounds rlc (sn.setModulusBase rlc.vtA).succ
            (ackSn.setModulusBase rlc.vtA) true
        else statusLoop header rounds rlc sn.succ ackSn false
    else some rlc

/-- `DoReceivePdu`, of a STATUS PDU with its header. -/
def receiveStatusPdu (rlc : LteRlcAm) (header : LteRlcAmHeader) : Option LteRlcAm :=
  let base := rlc.vtA.setModulusBase rlc.vtA
  let rlc := { rlc with
    vtA := base
    vtS := rlc.vtS.setModulusBase base
    vtMs := rlc.vtMs.setModulusBase base }
  statusLoop header 1025 rlc rlc.vtA (header.ackSn.setModulusBase base) true

/-- The loop of `ExpirePollRetransmitTimer`, whose rounds are counted down. -/
def moveAll : Nat → LteRlcAm → SequenceNumber10 → Option LteRlcAm
  | 0, _, _ => none
  | rounds + 1, rlc, sn =>
    if sn.lt rlc.vtS then
      match rlc.txedBuffer sn.value with
      | some pdu => moveAll rounds (rlc.moveToRetxBuffer sn.value pdu) sn.succ
      | none => moveAll rounds rlc sn.succ
    else some rlc

def expirePollRetransmitTimer (rlc : LteRlcAm) : Option LteRlcAm :=
  let rlc := { rlc with
    pollRetransmitTimerRunning := false, pollRetransmitTimerJustExpired := true }
  if !(rlc.vtS.le rlc.vtMs) then none
  else if (rlc.txonBufferSize = 0 ∧ rlc.retxBufferSize = 0) ∨ rlc.vtS.value = rlc.vtMs.value then
    moveAll 1025 rlc rlc.vtA
  else some rlc

end LteRlcAm

end MoeJit.Lte
