import Adl.Uadl.Request

/-!
# The buffers of a cache

A cache reads a new line into the linefill buffer and writes a line back from the eviction buffer,
both in entries of a fixed size. The next level is known through its interface: whether it takes a
request, whether it can serve one, and what its untimed bytes are.
-/

namespace Adl.Uadl

/-- A request to the next level. -/
structure NextRequest where
  type : CacheAccess
  ea : Addr
  addr : Addr
  size : ℕ
  serialized : BitVec 32 := 0
  hint : Option Bool := none
  data : Option (ℕ → Byte) := none
  writeThrough : Bool := false
  isEvict : Bool := false

/-- The next-level memory, at the port of the cache. -/
structure NextLevel (ν : Type*) where
  sendRequestInquire : ν → CacheAccess → BitVec 32 → Bool
  sendRequest : ν → NextRequest → ReqId × ν
  readInquire : ν → ReqId → Bool
  read : ν → ReqId → (ℕ → Byte) × ν
  writeInquire : ν → ReqId → Bool
  write : ν → ReqId → (ℕ → Byte) → ν
  cancel : ν → ReqId → ν
  levelMask : BitVec 32

variable {ν : Type*} (next : NextLevel ν)

/-! ### The linefill buffer -/

structure LinefillBufEntry where
  ea : Addr := 0
  addr : Addr := 0
  hasData : Bool := false
  requestSent : Bool := false
  requestId : ReqId := 0

def LinefillBufEntry.init (e : LinefillBufEntry) (ea ra : Addr) : LinefillBufEntry :=
  { e with ea := ea, addr := ra, hasData := false, requestSent := false }

structure LinefillBuf where
  criticalWordFirst : Bool
  lazyWriteback : Bool
  dynEntrySize : Bool
  lineWidth : ℕ
  entrySize : ℕ
  entries : List LinefillBufEntry
  data : ℕ → Byte := fun _ => 0
  requestId : ReqId := 0
  lineSet : BitVec 32 := 0
  lineWay : BitVec 32 := 0
  readData : Bool := true
  empty : Bool := true
  dirty : Bool := false
  locked : Bool := false
  criticalEntry : ℕ := 0
  criticalIds : List ℕ := []
  started : Bool := false
  allsent : Bool := false
  criticalWordReceived : Bool := false
  requestsRemaining : BitVec 32 := 0
  hasExtra : Bool := false
  extraEntry : LinefillBufEntry := {}

namespace LinefillBuf

variable (l : LinefillBuf)

def nEntries : ℕ := l.lineWidth / l.entrySize

/-- A `vector::resize`: entries are dropped or added at the end. -/
def setEntrySize (lineWidth entrySize : ℕ) : LinefillBuf :=
  let n := lineWidth / entrySize
  { l with
    lineWidth := lineWidth
    entrySize := entrySize
    entries := l.entries.take n ++ List.replicate (n - l.entries.length) {} }

def lineAddrMask : Addr := ~~~(BitVec.ofNat 64 l.lineWidth - 1)

def entryOffsetMask : Addr := ~~~l.lineAddrMask &&& ~~~(BitVec.ofNat 64 (l.entrySize - 1))

/-- The number of trailing zeros of the entry size. -/
def entryShift : ℕ := Nat.log2 (l.entrySize &&& (2 ^ 32 - l.entrySize))

def byteOffsetMask : Addr := ~~~l.lineAddrMask

def addr2Offset (addr : Addr) : ℕ := (addr &&& l.byteOffsetMask).toNat

def addr2EntryId (addr : Addr) : ℕ := ((addr &&& l.entryOffsetMask) >>> l.entryShift).toNat

def lineAddr : Addr := (l.entries.head?.map (·.addr)).getD 0

def hasEntry (addr : Addr) : Bool := !l.empty && addr &&& l.lineAddrMask = l.lineAddr

def hasData (addr : Addr) : Bool :=
  l.hasEntry addr && (l.entries[l.addr2EntryId addr]?).any (·.hasData)

def loaded : Bool := !l.empty && l.entries.all (·.hasData)

def quiet : Bool := l.empty || (l.lazyWriteback && l.loaded)

def isStarted : Bool := !l.empty && l.started

def criticalWordsLoaded : Bool :=
  l.loaded || (l.criticalWordFirst && (l.entries[l.criticalEntry]?).any (·.hasData))

def clear : LinefillBuf := { l with empty := true }

/-- The critical entry first, then those behind it and then those before it. -/
def addCriticalAddr (addr : Addr) : LinefillBuf :=
  let ci := l.addr2EntryId addr
  { l with
    criticalEntry := ci
    criticalIds := l.criticalIds ++ [ci] ++
      (List.range l.nEntries).filter (ci < ·) ++ List.range ci }

/-- The loop over the entries in `init`. An extra request that was sent for an entry is taken
over. -/
def initEntries (entryEa entryRa : Addr) : List LinefillBufEntry → LinefillBuf →
    List LinefillBufEntry × LinefillBuf
  | [], l => ([], l)
  | e :: rest, l =>
    let e := e.init entryEa entryRa
    let (e, l) :=
      if l.hasExtra && entryRa = l.extraEntry.addr && l.extraEntry.requestSent then
        ({ e with requestSent := true, requestId := l.extraEntry.requestId },
          { l with hasExtra := false, requestsRemaining := l.requestsRemaining - 1 })
      else (e, l)
    let size := BitVec.ofNat 64 l.entrySize
    let (rest, l) := initEntries (entryEa + size) (entryRa + size) rest l
    (e :: rest, l)

/-- `width` is the answer of the cache's `linefillWidth`. -/
def init (width : ℕ) (requestId : ReqId) (ea ra : Addr) (lineSet lineWay : BitVec 32)
    (readData : Bool) : LinefillBuf :=
  let entryEa := ea &&& l.lineAddrMask
  let entryRa := ra &&& l.lineAddrMask
  let l := { l with
    requestId := requestId, lineSet := lineSet, lineWay := lineWay, readData := readData,
    criticalWordReceived := false }
  let l := if l.dynEntrySize && width ≠ l.entrySize then l.setEntrySize l.lineWidth width else l
  let l := { l with requestsRemaining := BitVec.ofNat 32 l.nEntries }
  let (entries, l) := initEntries entryEa entryRa l.entries l
  let l := { l with
    entries := entries, hasExtra := false, empty := false, dirty := false, locked := false,
    started := false, allsent := false }
  if l.criticalWordFirst then { l with criticalIds := [] }.addCriticalAddr ra else l

def dwMask : Addr := 7

def setupExtra (ea ra : Addr) : LinefillBuf :=
  if l.hasExtra then l
  else
    let mask := if l.criticalWordFirst then ~~~dwMask else l.lineAddrMask
    { l with hasExtra := true, extraEntry := l.extraEntry.init (ea &&& mask) (ra &&& mask) }

/-! Requests -/

/-- Ask for an entry. The answer is whether the loop over the entries goes on. -/
def sendEntryRequest (e : LinefillBufEntry) (m : ν) : Bool × LinefillBufEntry × LinefillBuf × ν :=
  if e.hasData || e.requestSent then (true, e, l, m)
  else
    let type := if l.readData then .cacheRead else .cacheIFetch
    if next.sendRequestInquire m type 0 then
      let (id, m) := next.sendRequest m
        { type := type, ea := e.ea, addr := e.addr, size := l.entrySize }
      (true, { e with requestSent := true, requestId := id },
        { l with requestsRemaining := l.requestsRemaining - 1, started := true }, m)
    else (false, e, l, m)

/-- Send the request of the entry with this index, and note whether it is sent. -/
def sendAt (i : ℕ) (m : ν) : Bool × LinefillBuf × ν :=
  match l.entries[i]? with
  | none => (true, l, m)
  | some e =>
    let (continueSend, e, l, m) := l.sendEntryRequest next e m
    (continueSend,
      { l with entries := l.entries.set i e, allsent := l.allsent && e.requestSent }, m)

/-- Go through entries until one cannot be sent. -/
def sendLoop : List ℕ → LinefillBuf → ν → Bool × LinefillBuf × ν
  | [], l, m => (true, l, m)
  | i :: rest, l, m =>
    match l.sendAt next i m with
    | (true, l, m) => sendLoop rest l m
    | (false, l, m) => (false, l, m)

def sendRequest (m : ν) : Bool × LinefillBuf × ν :=
  let l := { l with allsent := true }
  if l.empty then (true, l, m)
  else
    let critical := if l.criticalWordFirst then l.criticalIds else []
    sendLoop next (critical ++ List.range l.nEntries) l m

def sendExtraRequest (m : ν) : Bool × LinefillBuf × ν :=
  if l.hasExtra && !l.extraEntry.requestSent then
    let (continueSend, e, l, m) := l.sendEntryRequest next l.extraEntry m
    (continueSend, { l with extraEntry := e }, m)
  else (true, l, m)

/-! Data -/

def storeEntry (i : ℕ) (bytes : ℕ → Byte) : LinefillBuf :=
  { l with data := fun j =>
      if i * l.entrySize ≤ j ∧ j < (i + 1) * l.entrySize then bytes (j - i * l.entrySize)
      else l.data j }

/-- Read the entry with this index. The answer is whether the loop goes on, and whether data was
read. -/
def loadAt (i : ℕ) (m : ν) : Bool × Bool × LinefillBuf × ν :=
  match l.entries[i]? with
  | none => (true, false, l, m)
  | some e =>
    if e.hasData then (true, false, l, m)
    else if !e.requestSent then (false, false, l, m)
    else if next.readInquire m e.requestId then
      let (bytes, m) := next.read m e.requestId
      let entries := l.entries.set i { e with hasData := true }
      (true, true, { l.storeEntry i bytes with entries := entries }, m)
    else (false, false, l, m)

/-- Read entries until one is not there. -/
def loadLoop : List ℕ → LinefillBuf → ν → Bool × Bool × LinefillBuf × ν
  | [], l, m => (true, false, l, m)
  | i :: rest, l, m =>
    match l.loadAt next i m with
    | (true, dataRead, l, m) =>
      let (continueRead, dataRead', l, m) := loadLoop rest l m
      (continueRead, dataRead || dataRead', l, m)
    | (false, dataRead, l, m) => (false, dataRead, l, m)

/-- The loop over the critical entries, which notes that the critical one has come. -/
def loadCritical : List ℕ → LinefillBuf → ν → Bool × Bool × LinefillBuf × ν
  | [], l, m => (true, false, l, m)
  | i :: rest, l, m =>
    match l.loadAt next i m with
    | (true, dataRead, l, m) =>
      let l := if i = l.criticalEntry then { l with criticalWordReceived := true } else l
      let (continueRead, dataRead', l, m) := loadCritical rest l m
      (continueRead, dataRead || dataRead', l, m)
    | (false, dataRead, l, m) => (false, dataRead, l, m)

def loadData (m : ν) : Bool × LinefillBuf × ν :=
  let l := { l with criticalWordReceived := false }
  if l.empty then (false, l, m)
  else
    let (continueRead, dataRead, l, m) :=
      if l.criticalWordFirst then
        let (continueRead, dataRead, l, m) := loadCritical next l.criticalIds l m
        let loadedId := fun i => (l.entries[i]?).any (·.hasData)
        (continueRead, dataRead, { l with criticalIds := l.criticalIds.dropWhile loadedId }, m)
      else (true, false, l, m)
    if continueRead then
      let (_, dataRead', l, m) := loadLoop next (List.range l.nEntries) l m
      (dataRead || dataRead', l, m)
    else (dataRead, l, m)

end LinefillBuf

/-! ### The eviction buffer -/

structure EvictBufEntry where
  ea : Addr := 0
  addr : Addr := 0
  requestSent : Bool := false
  dataSent : Bool := false
  requestId : ReqId := 0

def EvictBufEntry.reset (e : EvictBufEntry) (ea ra : Addr) : EvictBufEntry :=
  { e with ea := ea, addr := ra, requestSent := false, dataSent := false }

structure EvictBuf where
  dynEntrySize : Bool
  lineWidth : ℕ
  entrySize : ℕ
  entries : List EvictBufEntry
  data : ℕ → Byte := fun _ => 0
  hasData : Bool := false
  requestId : ReqId := 0

namespace EvictBuf

variable (b : EvictBuf)

def setEntrySize (lineWidth entrySize : ℕ) : EvictBuf :=
  let n := lineWidth / entrySize
  { b with
    entrySize := entrySize
    entries := b.entries.take n ++ List.replicate (n - b.entries.length) {} }

def empty : Bool := !b.hasData

def resetEntries (entrySize : ℕ) : Addr → Addr → List EvictBufEntry → List EvictBufEntry
  | _, _, [] => []
  | ea, ra, e :: rest =>
    let size := BitVec.ofNat 64 entrySize
    e.reset ea ra :: resetEntries entrySize (ea + size) (ra + size) rest

/-- `width` is the answer of the cache's `linefillWidth`. -/
def init (width : ℕ) (requestId : ReqId) (ea ra : Addr) (data : ℕ → Byte) : EvictBuf :=
  let b := if b.dynEntrySize && width ≠ b.entrySize then b.setEntrySize b.lineWidth width else b
  { b with
    entries := resetEntries b.entrySize ea ra b.entries
    data := data
    hasData := true
    requestId := requestId }

def clear : EvictBuf := { b with hasData := false }

def evicted : Bool := !b.empty && b.entries.all (·.dataSent)

/-- Send the requests of the entries from index `i` on, until one cannot be sent. -/
def sendEntries (b : EvictBuf) : ℕ → List EvictBufEntry → ν → Bool × List EvictBufEntry × ν
  | _, [], m => (true, [], m)
  | i, e :: rest, m =>
    if e.requestSent then
      let (continueSend, rest, m) := sendEntries b (i + 1) rest m
      (continueSend, e :: rest, m)
    else if next.sendRequestInquire m .cacheWrite 0 then
      let (id, m) := next.sendRequest m
        { type := .cacheWrite, ea := e.ea, addr := e.addr, size := b.entrySize, isEvict := true,
          data := some fun j => b.data (i * b.entrySize + j) }
      let (continueSend, rest, m) := sendEntries b (i + 1) rest m
      (continueSend, { e with requestSent := true, requestId := id } :: rest, m)
    else (false, e :: rest, m)

def sendRequest (m : ν) : Bool × EvictBuf × ν :=
  if b.empty then (true, b, m)
  else
    let (continueSend, entries, m) := sendEntries next b 0 b.entries m
    (continueSend, { b with entries := entries }, m)

/-- Write the entries from index `i` on, until one cannot be written. The answer is whether data
was written. -/
def pushEntries (b : EvictBuf) : ℕ → List EvictBufEntry → ν → Bool × List EvictBufEntry × ν
  | _, [], m => (false, [], m)
  | i, e :: rest, m =>
    if e.requestSent && (e.dataSent || next.writeInquire m e.requestId) then
      if e.dataSent then
        let (dataWritten, rest, m) := pushEntries b (i + 1) rest m
        (dataWritten, e :: rest, m)
      else
        let m := next.write m e.requestId fun j => b.data (i * b.entrySize + j)
        let (_, rest, m) := pushEntries b (i + 1) rest m
        (true, { e with dataSent := true } :: rest, m)
    else (false, e :: rest, m)

def pushData (m : ν) : Bool × EvictBuf × ν :=
  if b.empty then (false, b, m)
  else
    let (dataWritten, entries, m) := pushEntries next b 0 b.entries m
    (dataWritten, { b with entries := entries }, m)

end EvictBuf

end Adl.Uadl
