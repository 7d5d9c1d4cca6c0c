import Mathlib.Logic.Function.Basic
import Adl.Uadl.Buffers
import Adl.Uadl.Memory

/-!
# The state of a cache

A timed cache holds data in the linefill buffer, the data array of the functional cache, the store
buffer and the eviction buffer. Lookups, replacement and the tags are those of the functional cache,
which is a parameter.
-/

namespace Adl.Uadl

variable {ν ι : Type*}

/-! ### The functional cache -/

/-- The arrays of the functional cache, and the rest of its state. -/
structure IssCache (ι : Type*) where
  valid : BitVec 32 → BitVec 32 → Bool
  tag : BitVec 32 → BitVec 32 → Addr
  data : BitVec 32 → BitVec 32 → ℕ → Byte
  other : ι

namespace IssCache

variable (c : IssCache ι) (lineWidth : ℕ)

def getOffset (addr : Addr) : ℕ := (addr &&& (BitVec.ofNat 64 lineWidth - 1)).toNat

def setByte (lineSet lineWay : BitVec 32) (offset : ℕ) (v : Byte) : IssCache ι :=
  let bytes := Function.update (c.data lineSet lineWay) offset v
  { c with data := Function.update c.data lineSet (Function.update (c.data lineSet) lineWay bytes) }

end IssCache

/-! ### Cache state -/

inductive NextLevelActionType where
  /-- Load the linefill buffer. -/
  | linefill
  /-- Evict a cache line. -/
  | evict
  /-- Serve a read miss that is not allocated. -/
  | readNext
  /-- Write an entry of the store buffer. -/
  | storeNext
deriving DecidableEq, Repr

structure NextLevelAction where
  type : NextLevelActionType
  id : ReqId
  /-- Port and slot of the request. -/
  request : Option (ℕ × ℕ) := none
  hasParallelEvict : Bool := false
  requestType : CacheAccess := .cacheNoAccess
  ea : Addr := 0
  addr : Addr := 0
  lineSet : BitVec 32 := 0
  lineWay : BitVec 32 := 0
  replaceLine : Bool := false
  useStoreBuf : Bool := false
  started : Bool := false
  requestId : ReqId := 0
  completed : Bool := false

/-- The constructor: a linefill or an eviction copies what it needs from the request and does not
point to it. -/
def NextLevelAction.new (type : NextLevelActionType) (request : ℕ × ℕ) (r : MemoryRequest)
    (hasParallelEvict : Bool) : NextLevelAction :=
  let a : NextLevelAction :=
    { type := type, id := r.id, hasParallelEvict := hasParallelEvict, useStoreBuf := r.useStoreBuf }
  match type with
  | .linefill =>
    { a with
      requestType := r.type, ea := r.ea, addr := r.addr, lineSet := r.lineSet, lineWay := r.lineWay,
      replaceLine := r.replaceLine }
  | .evict =>
    { a with
      requestType := r.type, ea := r.ea, addr := r.addr, lineSet := r.lineSet,
      lineWay := r.lineWay }
  | .readNext => { a with request := some request }
  | .storeNext => { a with request := some request, ea := r.ea, addr := r.addr }

structure StoreBufEntry where
  ea : Addr
  addr : Addr
  dataWidth : BitVec 32
  serialized : BitVec 32
  time : ℕ
  hint : Option Bool
  writeThrough : Bool
  data : ℕ → Byte

inductive BlockCriticalType where
  | bcwFalse
  | bcwSerialized
  | bcwTrue
deriving DecidableEq, Repr

/-- What a lookup in the functional cache answers for a request. -/
structure BeginResult where
  /-- Whether the cache takes part. -/
  began : Bool
  action : CacheAction
  lineSet : BitVec 32
  lineWay : BitVec 32
  replaceLine : Bool

/-- The parameters of a cache, with the functions that it calls in the functional cache. -/
structure Config (ν ι : Type*) extends MemoryConfig where
  next : NextLevel ν
  lineWidth : ℕ
  withData : Bool
  writeThrough : Bool
  fillReadLatency : ℕ
  fillWriteLatency : ℕ
  zeroLatency : ℕ
  taken2writeLatency : ℕ
  write2nextLatency : ℕ
  linefillLockCycle : ℕ
  linefillLockHoldoffCycle : ℕ
  linefillLockOnValid : Bool
  consecutiveLinefills : Bool
  blockOnCriticalWord : BlockCriticalType
  evictLockCycle : ℕ
  storeBufSize : ℕ
  commandLatency : CacheAccess → ℕ
  operationBegin : MemoryRequest → Bool → IssCache ι → BeginResult × IssCache ι
  operationEnd : MemoryRequest → Bool → IssCache ι → IssCache ι
  storeBufEnabled : IssCache ι → Bool
  linefillWidth : IssCache ι → Addr → Addr → ℕ

structure Cache (ν ι : Type*) extends Memory where
  /-- The next level. -/
  memory : ν
  iss : IssCache ι
  linefill : LinefillBuf
  evictBuf : EvictBuf
  storeBuf : List StoreBufEntry := []
  actions : List NextLevelAction := []
  /-- Number of actions of the current cycle. -/
  nActions : BitVec 32 := 0
  linefillIds : List ReqId := []
  /-- Which lines of the data array have their data. -/
  lineHasData : BitVec 32 → BitVec 32 → Bool
  command : CacheAccess := .cacheNoAccess
  linefillRequestBlock : ℕ := 0
  canLookup : Bool := true
  memDataBusBusy : Bool := false
  serializedValid : Bool := true
  lookupDisableTimes : List ℕ := []
  lookupEnableTimes : List ℕ := []

namespace Cache

variable (cfg : Config ν ι) (c : Cache ν ι)

/-! ### Bytes -/

def setByteAt (l : Loc) (v : Byte) : Cache ν ι :=
  match l with
  | .linefill offset =>
    { c with linefill := { c.linefill with data := Function.update c.linefill.data offset v } }
  | .line lineSet lineWay offset => { c with iss := c.iss.setByte lineSet lineWay offset v }
  | .store entry offset =>
    { c with storeBuf := c.storeBuf.modify entry fun e =>
        { e with data := Function.update e.data offset v } }

/-- `memcpy` to a place in the cache. -/
def storeBytes (l : Loc) (v : ℕ → Byte) : ℕ → Cache ν ι
  | 0 => c
  | n + 1 => (storeBytes l v n).setByteAt (l.add n) (v n)

end Cache

/-! ### A cache over a flat memory -/

def flatMemory : NextLevel (Addr → Byte) where
  sendRequestInquire _ _ _ := true
  sendRequest m _ := (0, m)
  readInquire _ _ := true
  read m _ := (fun _ => 0, m)
  writeInquire _ _ := true
  write m _ _ := m
  cancel m _ := m
  levelMask := 0

/-- Lines of 32 bytes and a functional cache that always misses. -/
def flatConfig : Config (Addr → Byte) Unit where
  next := flatMemory
  lineWidth := 32
  withData := true
  preemptive := false
  levelMask := 1
  writeThrough := true
  readLatency := 1
  writeLatency := 1
  fillReadLatency := 1
  fillWriteLatency := 1
  zeroLatency := 0
  taken2writeLatency := 0
  write2nextLatency := 0
  linefillLockCycle := 0
  linefillLockHoldoffCycle := 0
  linefillLockOnValid := false
  consecutiveLinefills := false
  blockOnCriticalWord := .bcwFalse
  evictLockCycle := 0
  storeBufSize := 4
  commandLatency _ := 0
  operationBegin _ _ iss := (⟨true, .cacheMiss, 0, 0, true⟩, iss)
  operationEnd _ _ iss := iss
  storeBufEnabled _ := true
  linefillWidth _ _ _ := 8

def flatCache : Cache (Addr → Byte) Unit where
  memory _ := 0
  iss := ⟨fun _ _ => false, fun _ _ => 0, fun _ _ _ => 0, ()⟩
  currTime := 0
  ports := []
  linefill :=
    { criticalWordFirst := false, lazyWriteback := false, dynEntrySize := false, lineWidth := 32,
      entrySize := 8, entries := List.replicate 4 {} }
  evictBuf := { dynEntrySize := false, lineWidth := 32, entrySize := 8,
                entries := List.replicate 4 {} }
  lineHasData _ _ := false

end Adl.Uadl
