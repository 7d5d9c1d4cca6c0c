import Adl.Uadl.Request

/-!
# Memories with request queues

A memory takes requests on several ports. A client asks whether a request can be sent and sends it;
later it asks whether it can be served and reads or writes. A request can be cancelled, deeply,
which removes it, or only marked.

A preemptive memory lets a read or a write take the place of an instruction fetch that waits on the
bus. Which fetch this is, is noted at the start of the cycle, for all ports together.
-/

namespace Adl.Uadl

structure MemoryConfig where
  /-- Only with ports that allow a waiting request. -/
  preemptive : Bool
  levelMask : BitVec 32
  readLatency : ℕ
  writeLatency : ℕ

structure Memory where
  currTime : ℕ
  ports : List MemoryPort
  requestId : BitVec 64 := 1
  queueWasFull : Bool := false
  preemptionId : Option ReqId := none
  locked : Bool := false
  locker : ℕ := 0
  unlockDelay : ℤ := -1

structure ClientRequest where
  type : CacheAccess
  ea : Addr
  addr : Addr
  dataWidth : BitVec 32
  serialized : BitVec 32 := 0
  hint : Option Bool := none
  writeThrough : Bool := false
  isEvict : Bool := false

/-- The place of a request behind the queue, or at its end. -/
inductive Preempted where
  | waiting (portId : ℕ)
  | back (portId : ℕ)
deriving DecidableEq, Repr

def Preempted.portId : Preempted → ℕ
  | waiting portId => portId
  | back portId => portId

def Preempted.put (r : MemoryRequest) : Preempted → MemoryPort → MemoryPort
  | waiting _, p => { p with waitingRequest := some r }
  | back _, p => { p with requests := p.requests.dropLast ++ [r] }

namespace Memory

variable (cfg : MemoryConfig) (m : Memory)

def timeAtOrPassed (time : ℕ) : Bool := time ≤ m.currTime

def modifyPort (portId : ℕ) (f : MemoryPort → MemoryPort) : Memory :=
  { m with ports := m.ports.modify portId f }

/-! ### Status -/

def nAvailableRequestSlots (portId : ℕ) : ℕ :=
  (m.ports[portId]?).elim 0 (·.nAvailableRequestSlots)

/-- The first port stands for all. -/
def updateQueueStatus : Memory := { m with queueWasFull := m.nAvailableRequestSlots 0 = 0 }

def updatePortStatus : Memory := { m with ports := m.ports.map (·.updateStatus) }

def waitingFetch : Option ReqId :=
  m.ports.findSome? fun p => (p.waitingRequest.filter (·.type = .cacheIFetch)).map (·.id)

def saveQueueStatus : Memory :=
  let m := m.updateQueueStatus.updatePortStatus
  if cfg.preemptive then { m with preemptionId := m.waitingFetch } else m

def checkDelayedUnlock : Memory :=
  if m.locked ∧ 0 ≤ m.unlockDelay then
    if m.unlockDelay - 1 ≤ 0 then { m with locked := false, unlockDelay := -1 }
    else { m with unlockDelay := m.unlockDelay - 1 }
  else m

/-- `iid` is the number of the instruction, if the access comes from one. -/
def memLockInquire (iid : Option ℕ) : Bool := !m.locked || iid = some m.locker

def serializedInquire (serialized : BitVec 32) (portId : ℕ) : Bool :=
  serialized &&& cfg.levelMask = 0 || !(m.ports[portId]?).any (·.active)

def hasAddrBandwidth (portId : ℕ) : Bool :=
  (m.ports[portId]?).any (·.hasAddrBandwidth m.currTime)

def hasDataBandwidth (portId : ℕ) : Bool :=
  (m.ports[portId]?).any (·.hasDataBandwidth m.currTime)

/-! ### Sending -/

/-- The first port with this request in its waiting slot. -/
def getWaitingRequest (id : ReqId) : Option (ℕ × MemoryRequest) :=
  m.ports.zipIdx.findSome? fun (p, i) => (p.waitingRequest.filter (·.id = id)).map (i, ·)

/-- The noted fetch, in a waiting slot of any port or at the back of the queue of this one. -/
def preemptable (portId : ℕ) : Option (Preempted × MemoryRequest) :=
  m.preemptionId.bind fun id =>
    match m.getWaitingRequest id with
    | some (i, r) => some (.waiting i, r)
    | none =>
      (((m.ports[portId]?).bind (·.requests.getLast?)).filter (·.id = id)).map (.back portId, ·)

/-- Reads and writes preempt; others take the place of a cancelled fetch. -/
def canPreempt (type : CacheAccess) (portId : ℕ) : Option Preempted :=
  ((m.preemptable portId).filter fun (_, r) =>
    type = .cacheRead || type = .cacheWrite || r.cancelled).map (·.1)

def sendRequestInquire (iid : Option ℕ) (type : CacheAccess) (serialized : BitVec 32)
    (portId : ℕ) : Bool :=
  m.memLockInquire iid && m.hasAddrBandwidth portId && m.serializedInquire cfg serialized portId &&
    (!(m.queueWasFull || m.nAvailableRequestSlots portId = 0) || (m.canPreempt type portId).isSome)

/-- The number is cut to the size of the field. -/
def nextId : ReqId := m.requestId.setWidth 32

def newRequest (portId : ℕ) (r : ClientRequest) : MemoryRequest :=
  { id := m.nextId, portId := portId, time := m.currTime, takenTime := m.currTime, type := r.type,
    isEvict := r.isEvict, ea := r.ea, addr := r.addr, dataWidth := r.dataWidth,
    serialized := r.serialized, hint := r.hint, writeThrough := r.writeThrough }

/-- Sending uses address bandwidth. A full queue takes the request in the place of a preempted one
or on the bus. -/
def sendRequest (portId : ℕ) (request : ClientRequest) : Memory :=
  let r := m.newRequest portId request
  let m' := { m.modifyPort portId (·.consumeAddrBandwidth m.currTime) with
    requestId := m.requestId + 1 }
  let m' :=
    if (m.ports[portId]?).any (!·.fullRequests) then m'.modifyPort portId (·.addRequest r)
    else
      match m.canPreempt request.type portId with
      | some place => m'.modifyPort place.portId (place.put r)
      | none => m'.modifyPort portId ((Preempted.waiting portId).put r)
  m'.updateQueueStatus

/-! ### Serving -/

def addRequest (r : MemoryRequest) : Memory :=
  m.modifyPort r.portId (·.addRequest { r with takenTime := m.currTime })

def cancelWaitingRequest (portId : ℕ) : Memory :=
  m.modifyPort portId fun p => { p with waitingRequest := none }

def addWaitingRequest (portId : ℕ) : Memory :=
  match (m.ports[portId]?).bind (·.waitingRequest) with
  | some r => (m.addRequest r).cancelWaitingRequest portId
  | none => m

def removeRequest (portId : ℕ) : Memory :=
  (m.modifyPort portId (·.popFrontRequest)).addWaitingRequest portId

/-- A request is served at the front of its queue, when its latency has passed. -/
def requestInquire (iid : Option ℕ) (portId : ℕ) (id : ReqId) : Bool :=
  m.memLockInquire iid &&
    ((m.ports[portId]?).bind (·.requests.head?)).any fun r =>
      r.id = id && r.expired && m.hasDataBandwidth r.portId

def serve (portId : ℕ) : Memory :=
  (m.modifyPort portId (·.consumeDataBandwidth m.currTime)).removeRequest portId

/-! ### Cancellation -/

/-- Mark or remove a request of the queue of a port; `none` if it is not there. -/
def cancelInternal (portId : ℕ) (id : ReqId) (deep : Bool) : Option Memory :=
  ((m.ports[portId]?).bind (·.findRequestIdx id)).map fun index =>
    if deep then (m.modifyPort portId (·.removeRequest index)).addWaitingRequest portId
    else m.modifyPort portId (·.modifyRequest index ({ · with cancelled := true }))

def checkWaitingForCancel (id : ReqId) (deep : Bool) : Memory :=
  match m.getWaitingRequest id with
  | some (i, r) =>
    if deep then m.cancelWaitingRequest i
    else m.modifyPort i fun p => { p with waitingRequest := some { r with cancelled := true } }
  | none => m

/-- Search the queue of the port, and then all waiting slots. -/
def cancel (portId : ℕ) (id : ReqId) (deep : Bool) : Memory :=
  (m.cancelInternal portId id deep).getD (m.checkWaitingForCancel id deep)

def findPort (id : ReqId) : Option ℕ := m.ports.findIdx? fun p => (p.findRequestIdx id).isSome

/-- Search all queues, and then all waiting slots. -/
def cancelAny (id : ReqId) (deep : Bool) : Memory :=
  ((m.findPort id).bind (m.cancelInternal · id deep)).getD (m.checkWaitingForCancel id deep)

/-! ### Cycles -/

def latency (r : MemoryRequest) : ℕ :=
  let own := (m.ports[r.portId]?).elim 0 fun p => if r.isRead then p.readLatency else p.writeLatency
  if own ≠ 0 then own else if r.isRead then cfg.readLatency else cfg.writeLatency

def expire (r : MemoryRequest) : MemoryRequest :=
  { r with expired := r.expired || m.timeAtOrPassed (r.time + m.latency cfg r) }

/-- Remove requests from the front while they are expired and cancelled. -/
def dropLoop : ℕ → Memory → ℕ → Memory
  | 0, m, _ => m
  | fuel + 1, m, portId =>
    if ((m.ports[portId]?).bind (·.requests.head?)).any fun r => r.expired && r.cancelled then
      dropLoop fuel (m.removeRequest portId) portId
    else m

/-- A removal takes a request out of the queue or out of the waiting slot for good. -/
def preCyclePort (portId : ℕ) : Memory :=
  let m := m.modifyPort portId fun p => { p with requests := p.requests.map (m.expire cfg) }
  dropLoop ((m.ports[portId]?).elim 0 (·.requests.length + 1)) m portId

def preCycle : Memory :=
  let m := (m.saveQueueStatus cfg).checkDelayedUnlock
  (List.range m.ports.length).foldl (fun m portId => m.preCyclePort cfg portId) m

end Memory

end Adl.Uadl
