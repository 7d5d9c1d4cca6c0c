import Mathlib.Data.BitVec
import Mathlib.Data.Nat.Notation
import Adl.Math.Ring

/-!
# Memory requests and ports

A port of a timed memory has a queue of requests, and possibly one request that waits on the bus
while the queue is full.

The queue is a ring buffer, modelled as the list that it shows with the slot of the first request,
so that a pointer to a request is a slot: it stays the same when the front is popped and refers to
another request after an erasure in the middle.
-/

namespace Adl.Uadl

abbrev Addr := BitVec 64

abbrev Byte := BitVec 8

/-- The numbers of requests. -/
abbrev ReqId := BitVec 32

inductive CacheAccess where
  | cacheNoAccess
  | cacheIFetch
  | cacheIFetchTrans
  | cacheILogRead
  | cacheLogRead
  | cacheRead
  | cacheWrite
  | cacheFlush
  | cacheStore
  | cacheTouch
  | cacheAlloc
  | cacheInvalidate
  | cacheLock
  | cacheLockAddr
  | cacheUnlock
deriving DecidableEq, Repr

/-- What the functional cache did with an access. -/
inductive CacheAction where
  | cacheNone
  | cacheHit
  | cacheMiss
  | cacheEvict
  | cacheLoad
deriving DecidableEq, Repr

/-- A pointer to a byte that a cache holds. -/
inductive Loc where
  | linefill (offset : ℕ)
  | line (lineSet lineWay : BitVec 32) (offset : ℕ)
  | store (entry offset : ℕ)
deriving DecidableEq, Repr

/-- The `n`-th byte after a byte. -/
def Loc.add : Loc → ℕ → Loc
  | linefill offset, n => linefill (offset + n)
  | line lineSet lineWay offset, n => line lineSet lineWay (offset + n)
  | store entry offset, n => store entry (offset + n)

/-- Where the data of a request is. -/
inductive RequestData where
  | null
  | loc (loc : Loc)
  /-- In the buffer of the request itself. -/
  | buf
deriving DecidableEq, Repr

structure MemoryRequest where
  id : ReqId
  portId : ℕ
  time : ℕ
  takenTime : ℕ
  lookupTime : ℕ := 0
  expired : Bool := false
  cancelled : Bool := false
  type : CacheAccess
  isEvict : Bool := false
  ea : Addr
  addr : Addr
  dataWidth : BitVec 32
  serialized : BitVec 32
  data : RequestData := .null
  /-- A valid hint says whether the store buffer is enabled. -/
  hint : Option Bool := none
  writeThrough : Bool := false
  lookupDone : Bool := false
  replaceLine : Bool := false
  lineSet : BitVec 32 := -1
  lineWay : BitVec 32 := -1
  offset : ℕ := 0
  action : CacheAction := .cacheNone
  hitLinefillBuf : Bool := false
  useStoreBuf : Bool := false
  /-- Holds the data of a read that is not allocated. -/
  buf : ℕ → Byte := fun _ => 0

namespace MemoryRequest

def isRead (r : MemoryRequest) : Bool := r.type = .cacheRead ∨ r.type = .cacheIFetch

def isWrite (r : MemoryRequest) : Bool := r.type = .cacheWrite

def isHit (r : MemoryRequest) : Bool :=
  r.lookupDone && (r.action = .cacheHit || r.hitLinefillBuf)

def needEviction (r : MemoryRequest) : Bool := r.lookupDone && r.action = .cacheEvict

def needLinefill (r : MemoryRequest) : Bool :=
  r.lookupDone && (r.action = .cacheMiss || r.action = .cacheEvict)

end MemoryRequest

/-! ### Bandwidth -/

structure BandwidthControl where
  /-- Zero stands for no limit. -/
  bandwidth : ℕ
  consumed : ℕ := 0
  lastConsumeTime : ℕ := 0

namespace BandwidthControl

def hasBandwidth (b : BandwidthControl) (currTime : ℕ) : Bool :=
  b.bandwidth = 0 ∨ currTime ≠ b.lastConsumeTime ∨ b.consumed < b.bandwidth

def consumeBandwidth (b : BandwidthControl) (currTime : ℕ) : BandwidthControl :=
  if b.bandwidth = 0 then b
  else if currTime ≠ b.lastConsumeTime then { b with lastConsumeTime := currTime, consumed := 1 }
  else if b.consumed < b.bandwidth then { b with consumed := b.consumed + 1 }
  else b

end BandwidthControl

/-! ### Ports -/

structure MemoryPort where
  capacity : ℕ
  allowWaitingRequest : Bool
  commonBandwidth : Bool
  addrBandwidth : BandwidthControl
  dataBandwidth : BandwidthControl
  /-- The latencies are those of the memory if they are zero. -/
  readLatency : ℕ := 0
  writeLatency : ℕ := 0
  requests : List MemoryRequest := []
  /-- The slot of the first request. -/
  head : ℕ := 0
  waitingRequest : Option MemoryRequest := none
  active : Bool := false

namespace MemoryPort

variable (p : MemoryPort)

def fullRequests : Bool := p.requests.length = p.capacity

def emptyRequests : Bool := p.requests.isEmpty && p.waitingRequest.isNone

/-- Unsigned: the queue never has more requests than slots. -/
def nAvailableRequestSlots : ℕ :=
  (p.capacity - p.requests.length) +
    if p.allowWaitingRequest && p.waitingRequest.isNone then 1 else 0

/-- There is one slot more than requests, to tell a full ring from an empty one. A request that is
added to a full ring makes it look empty. -/
def addRequest (r : MemoryRequest) : MemoryPort :=
  { p with requests := Math.ringPush (p.capacity + 1) p.requests r }

/-- There is one slot more than requests, to tell a full ring from an empty one. -/
def popFrontRequest : MemoryPort :=
  { p with requests := p.requests.tail, head := (p.head + 1) % (p.capacity + 1) }

def removeRequest (index : ℕ) : MemoryPort := { p with requests := p.requests.eraseIdx index }

def findRequestIdx (id : ReqId) : Option ℕ := p.requests.findIdx? (·.id = id)

def slot (index : ℕ) : ℕ := (p.head + index) % (p.capacity + 1)

/-- The pointer to the request with this number, if there is one. -/
def findRequest (id : ReqId) : Option ℕ := (p.findRequestIdx id).map p.slot

/-- The index of the request in a slot. -/
def index? (slot : ℕ) : Option ℕ :=
  let index := (slot + (p.capacity + 1) - p.head) % (p.capacity + 1)
  if index < p.requests.length then some index else none

/-- The request in a slot; `none` if the slot is not in use. -/
def deref (slot : ℕ) : Option MemoryRequest := (p.index? slot).bind (p.requests[·]?)

/-- Change the request with this index. -/
def modifyRequest (index : ℕ) (f : MemoryRequest → MemoryRequest) : MemoryPort :=
  { p with requests := p.requests.modify index f }

def hasAddrBandwidth (currTime : ℕ) : Bool := p.addrBandwidth.hasBandwidth currTime

def hasDataBandwidth (currTime : ℕ) : Bool :=
  (if p.commonBandwidth then p.addrBandwidth else p.dataBandwidth).hasBandwidth currTime

def consumeAddrBandwidth (currTime : ℕ) : MemoryPort :=
  { p with addrBandwidth := p.addrBandwidth.consumeBandwidth currTime }

def consumeDataBandwidth (currTime : ℕ) : MemoryPort :=
  if p.commonBandwidth then p.consumeAddrBandwidth currTime
  else { p with dataBandwidth := p.dataBandwidth.consumeBandwidth currTime }

def updateStatus : MemoryPort := { p with active := !p.emptyRequests }

end MemoryPort

end Adl.Uadl
