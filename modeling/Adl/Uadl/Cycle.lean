import Adl.Uadl.Cache

/-!
# The cycles of a cache

At the start of a cycle, a cache first moves data between its buffers and the next level. Then it
looks at the requests of its port: misses add actions at the end of the queue. At the end of the
cycle, the requests of the actions are sent to the next level. Clients send, read, write, cancel and
give commands in between.
-/

namespace Adl.Uadl

variable {ν ι : Type*}

namespace Cache

variable (cfg : Config ν ι) (c : Cache ν ι)

/-! ### Parts -/

def onMemory (f : Memory → Memory) : Cache ν ι := { c with toMemory := f c.toMemory }

def requests : List MemoryRequest := (c.ports[0]?).elim [] (·.requests)

def setRequest (i : ℕ) (r : MemoryRequest) : Cache ν ι :=
  c.onMemory (·.modifyPort 0 (·.modifyRequest i fun _ => r))

def pointer (i : ℕ) : ℕ × ℕ := (0, (c.ports[0]?).elim 0 (·.slot i))

def deref (pointer : Option (ℕ × ℕ)) : Option MemoryRequest :=
  pointer.bind fun (port, slot) => (c.ports[port]?).bind (·.deref slot)

def modifyAt (pointer : Option (ℕ × ℕ)) (f : MemoryRequest → MemoryRequest) : Cache ν ι :=
  pointer.elim c fun (port, slot) => c.onMemory (·.modifyPort port fun p =>
    (p.index? slot).elim p (p.modifyRequest · f))

def setLineHasData (lineSet lineWay : BitVec 32) (b : Bool) : Cache ν ι :=
  let ways := Function.update (c.lineHasData lineSet) lineWay b
  { c with lineHasData := Function.update c.lineHasData lineSet ways }

def clearValid (lineSet lineWay : BitVec 32) : Cache ν ι :=
  let ways := Function.update (c.iss.valid lineSet) lineWay false
  { c with iss := { c.iss with valid := Function.update c.iss.valid lineSet ways } }

/-- Fill a line of the data array. -/
def setCacheData (lineSet lineWay : BitVec 32) (bytes : ℕ → Byte) : Cache ν ι :=
  if cfg.withData then
    let line := fun j => if j < cfg.lineWidth then bytes j else c.iss.data lineSet lineWay j
    let ways := Function.update (c.iss.data lineSet) lineWay line
    { c with iss := { c.iss with data := Function.update c.iss.data lineSet ways } }
  else c

def hasCommand : Bool := c.command ≠ .cacheNoAccess

def hitLinefillBuf (r : MemoryRequest) : Bool :=
  c.linefill.hasEntry r.addr && (c.linefillIds.head?).all (r.id < ·)

def operationBegin (r : MemoryRequest) : MemoryRequest × Cache ν ι :=
  let (b, iss) := cfg.operationBegin r c.hasCommand c.iss
  ({ r with
      lookupTime := c.currTime
      lineSet := b.lineSet
      lineWay := b.lineWay
      replaceLine := b.replaceLine
      action := if b.began then b.action else .cacheNone
      offset := if b.began then IssCache.getOffset cfg.lineWidth r.addr else r.offset
      lookupDone := true }, { c with iss := iss })

def operationEnd (r : MemoryRequest) : Cache ν ι :=
  if r.action ≠ .cacheNone then { c with iss := cfg.operationEnd r c.hasCommand c.iss } else c

def pushAction (a : NextLevelAction) : Cache ν ι := { c with actions := c.actions ++ [a] }

def addLinefillAction (pointer : ℕ × ℕ) (r : MemoryRequest) : Cache ν ι :=
  let c := c.setLineHasData r.lineSet r.lineWay false
  let c := c.pushAction (.new .linefill pointer r r.needEviction)
  let c := { c with linefillIds := c.linefillIds ++ [r.id] }
  if r.needEviction then c.pushAction (.new .evict pointer r false) else c

/-- Whether the linefill buffer can be cleared. It stays if another linefill goes to the same line
while requests need the buffer. -/
def writeBackLinefill : Bool × Cache ν ι :=
  let lineSet := c.linefill.lineSet
  let lineWay := c.linefill.lineWay
  let overloaded := (c.actions.drop 1).any fun a =>
    a.type = .linefill && a.lineSet = lineSet && a.lineWay = lineWay
  if overloaded then
    if c.requests.any c.hitLinefillBuf then
      (false, { c with linefill := { c.linefill with locked := true } })
    else (true, c)
  else
    let c := (c.setCacheData cfg lineSet lineWay c.linefill.data).setLineHasData
      lineSet lineWay true
    -- requests that have their data in the buffer find it in the line
    let adjust := fun r : MemoryRequest =>
      if c.hitLinefillBuf r && r.expired then
        { r with data := .loc (.line lineSet lineWay (c.linefill.addr2Offset r.addr)) }
      else r
    (true, c.onMemory (·.modifyPort 0 fun p => { p with requests := p.requests.map adjust }))

def endCommand : Cache ν ι :=
  let c := (c.requests.head?).elim c (c.operationEnd cfg)
  { c.onMemory (·.removeRequest 0) with command := .cacheNoAccess }

/-! ### Data phase -/

/-- The data phase of the first action: whether it is done, and whether the linefill buffer is to be
cleared. -/
def dataAction (clearLinefill : Bool) (a : NextLevelAction) : Bool × Bool × Cache ν ι :=
  match a.type with
  | .linefill =>
    let (clearLinefill, c) :=
      if a.started then
        let serializedValid := c.linefill.allsent && c.linefill.criticalWordsLoaded
        let (dataRead, linefill, memory) := c.linefill.loadData cfg.next c.memory
        let c := { c with
          serializedValid := serializedValid, linefill := linefill, memory := memory,
          memDataBusBusy := c.memDataBusBusy || dataRead }
        if c.linefill.loaded then
          let c := { c with actions := c.actions.modify 0 ({ · with completed := true }) }
          if !c.linefill.lazyWriteback &&
              (!a.hasParallelEvict || (c.actions[1]?).any (·.started)) then
            c.writeBackLinefill cfg
          else (clearLinefill, c)
        else (clearLinefill, c)
      else (clearLinefill, c)
    (a.started && (clearLinefill || c.linefill.quiet), clearLinefill, c)
  | .evict =>
    let c :=
      if a.started then
        let (dataWritten, evictBuf, memory) := c.evictBuf.pushData cfg.next c.memory
        let evictBuf := if evictBuf.evicted then evictBuf.clear else evictBuf
        { c with
          evictBuf := evictBuf, memory := memory,
          memDataBusBusy := c.memDataBusBusy || dataWritten }
      else c
    (a.started && c.evictBuf.empty, clearLinefill, c)
  | .readNext =>
    let continueAct := a.started && cfg.next.readInquire c.memory a.requestId
    let c :=
      if continueAct then
        let (bytes, memory) := cfg.next.read c.memory a.requestId
        { c.modifyAt a.request fun r => { r with data := .buf, expired := true, buf := bytes } with
          memory := memory, memDataBusBusy := true }
      else c
    (continueAct, clearLinefill, { c with serializedValid := c.serializedValid && !a.started })
  | .storeNext =>
    let continueAct := a.useStoreBuf && a.started && cfg.next.writeInquire c.memory a.requestId
    let c :=
      if continueAct then
        let bytes := (c.storeBuf.head?).elim (fun _ => 0) (·.data)
        { c with
          memory := cfg.next.write c.memory a.requestId bytes, memDataBusBusy := true,
          storeBuf := c.storeBuf.tail }
      else c
    (continueAct, clearLinefill, { c with serializedValid := c.serializedValid && !a.started })

/-- Actions are done in their order. The fuel bounds the number of actions. -/
def dataPhase : ℕ → Bool → Cache ν ι → Bool × Cache ν ι
  | 0, clearLinefill, c => (clearLinefill, c)
  | fuel + 1, clearLinefill, c =>
    match c.actions with
    | [] => (clearLinefill, c)
    | a :: _ =>
      match c.dataAction cfg clearLinefill a with
      | (true, clearLinefill, c) =>
        dataPhase fuel clearLinefill { c with actions := c.actions.tail }
      | (false, clearLinefill, c) => (clearLinefill, c)

/-! ### Requests -/

/-- A request that hits the linefill buffer, although the lookup may have missed. -/
def hitLinefill (r : MemoryRequest) : MemoryRequest × Cache ν ι :=
  let missed := r.action = .cacheMiss || r.action = .cacheEvict
  let moved := r.lineSet ≠ c.linefill.lineSet || r.lineWay ≠ c.linefill.lineWay
  ({ r with
      hitLinefillBuf := true
      lineSet := c.linefill.lineSet
      lineWay := c.linefill.lineWay
      offset := if r.action = .cacheNone then c.linefill.addr2Offset r.addr else r.offset },
    if moved && missed then c.clearValid r.lineSet r.lineWay else c)

def cacheLineHasData (r : MemoryRequest) : Bool := c.lineHasData r.lineSet r.lineWay

def linefillData (r : MemoryRequest) : RequestData :=
  .loc (.linefill (c.linefill.addr2Offset r.addr))

def lineData (r : MemoryRequest) : RequestData := .loc (.line r.lineSet r.lineWay r.offset)

def processRead (pointer : ℕ × ℕ) (isNewRequest atLinefillBuf : Bool) (r : MemoryRequest) :
    MemoryRequest × Cache ν ι :=
  if atLinefillBuf then
    if c.linefill.hasData r.addr && c.timeAtOrPassed (r.lookupTime + cfg.fillReadLatency) then
      ({ r with data := c.linefillData r, expired := true }, c)
    else (r, c)
  else if r.isHit then
    if c.cacheLineHasData r && c.timeAtOrPassed (r.lookupTime + cfg.readLatency) then
      ({ r with data := lineData r, expired := true }, c)
    else (r, c)
  else if isNewRequest then
    if r.needLinefill then (r, c.addLinefillAction pointer r)
    else (r, c.pushAction (.new .readNext pointer r false))
  else (r, c)

/-- Where a write finds its data, and the linefill that it causes. -/
def writeLookup (pointer : ℕ × ℕ) (isNewRequest atLinefillBuf : Bool) (r : MemoryRequest) :
    MemoryRequest × Cache ν ι :=
  let takenExpired := c.timeAtOrPassed (r.takenTime + cfg.taken2writeLatency)
  if atLinefillBuf then
    if c.linefill.hasData r.addr && takenExpired &&
        c.timeAtOrPassed (r.time + cfg.fillWriteLatency) then
      ({ r with data := c.linefillData r, expired := true }, c)
    else (r, c)
  else if r.isHit then
    if c.cacheLineHasData r && takenExpired && c.timeAtOrPassed (r.time + cfg.writeLatency) then
      ({ r with data := lineData r, expired := true }, c)
    else (r, c)
  else if r.needLinefill then
    if isNewRequest then (r, c.addLinefillAction pointer r) else (r, c)
  else if takenExpired then ({ r with data := .null, expired := true }, c)
  else (r, c)

def processWrite (pointer : ℕ × ℕ) (isNewRequest atLinefillBuf : Bool) (r : MemoryRequest) :
    MemoryRequest × Cache ν ι :=
  let isWriteThrough := r.action = .cacheNone || cfg.writeThrough || r.writeThrough
  let (r, c) := c.writeLookup cfg pointer isNewRequest atLinefillBuf r
  if isWriteThrough then
    if isNewRequest then
      let r := { r with useStoreBuf := r.hint.getD (cfg.storeBufEnabled c.iss) || r.isHit }
      if r.cancelled then (r, c) else (r, c.pushAction (.new .storeNext pointer r false))
    else if r.isHit && !r.useStoreBuf then
      -- the store goes through the buffer, although it was not planned so
      match c.actions.findIdx? fun a => a.id = r.id && a.type = .storeNext with
      | some k =>
        ({ r with useStoreBuf := true },
          { c with actions := c.actions.modify k ({ · with useStoreBuf := true }) })
      | none => (r, c)
    else (r, c)
  else (r, c)

def zeroNextLevel (pointer : ℕ × ℕ) (r : MemoryRequest) : Cache ν ι :=
  let offset := BitVec.ofNat 64 (c.linefill.addr2Offset r.addr)
  let size := c.linefill.entrySize
  let n := cfg.lineWidth / size
  let at' := fun (base : Addr) (k : ℕ) => base - offset + BitVec.ofNat 64 (k * size)
  { c with
    actions := c.actions ++ (List.range n).map fun k =>
      { NextLevelAction.new .storeNext pointer { r with useStoreBuf := true } false with
        ea := at' r.ea k, addr := at' r.addr k }
    storeBuf := c.storeBuf ++ (List.range n).map fun k =>
      { ea := at' r.ea k, addr := at' r.addr k, dataWidth := BitVec.ofNat 32 size,
        serialized := r.serialized, time := c.currTime, hint := r.hint,
        writeThrough := r.writeThrough, data := fun _ => 0 } }

/-- An eviction that does not belong to a linefill. -/
def pushEvict (pointer : ℕ × ℕ) (isNewRequest : Bool) (r : MemoryRequest) : Cache ν ι :=
  if isNewRequest && r.needEviction then c.pushAction (.new .evict pointer r false) else c

/-- The line is not zeroed until its eviction has started. -/
def processZero (pointer : ℕ × ℕ) (isNewRequest : Bool) (r : MemoryRequest) : Cache ν ι :=
  let c := c.pushEvict pointer isNewRequest r
  if r.action ≠ .cacheNone then
    if c.timeAtOrPassed (r.time + cfg.zeroLatency) &&
        (!r.needEviction || c.actions.getLast?.all (·.started)) then
      (c.setCacheData cfg r.lineSet r.lineWay fun _ => 0).endCommand cfg
    else c
  else (c.zeroNextLevel cfg pointer r).endCommand cfg

def processTouch (pointer : ℕ × ℕ) (isNewRequest : Bool) (r : MemoryRequest) : Cache ν ι :=
  let c := if isNewRequest && r.needLinefill then c.addLinefillAction pointer r else c
  if (r.isHit || !r.needLinefill) && c.timeAtOrPassed (r.time + cfg.commandLatency r.type) then
    c.endCommand cfg
  else c

def processCommand (pointer : ℕ × ℕ) (isNewRequest : Bool) (r : MemoryRequest) : Cache ν ι :=
  let c := c.pushEvict pointer isNewRequest r
  if c.timeAtOrPassed (r.time + cfg.commandLatency r.type) then
    let c :=
      if r.type = .cacheAlloc ∧ r.action ≠ .cacheNone then c.setLineHasData r.lineSet r.lineWay true
      else c
    c.endCommand cfg
  else c

/-- A request after its lookup. -/
def process (i : ℕ) (isNewRequest atLinefillBuf : Bool) (r : MemoryRequest) : Cache ν ι :=
  let pointer := c.pointer i
  if r.isRead then
    let (r, c) := c.processRead cfg pointer isNewRequest atLinefillBuf r
    c.setRequest i r
  else if r.isWrite && !c.hasCommand then
    let (r, c) := c.processWrite cfg pointer isNewRequest atLinefillBuf r
    c.setRequest i r
  else
    let c := c.setRequest i r
    if r.type = .cacheWrite then c.processZero cfg pointer isNewRequest r
    else if r.type = .cacheTouch then c.processTouch cfg pointer isNewRequest r
    else c.processCommand cfg pointer isNewRequest r

/-- Process requests from index `i` on. There is one lookup in a cycle. -/
def requestLoop (clearLinefill : Bool) : ℕ → ℕ → Cache ν ι → Cache ν ι
  | 0, _, c => c
  | fuel + 1, i, c =>
    match c.requests[i]? with
    | none => c
    | some r =>
      if r.expired then requestLoop clearLinefill fuel (i + 1) c
      else if r.lookupDone then
        let atLinefillBuf := c.hitLinefillBuf r && !clearLinefill
        let (r, c) := if atLinefillBuf then c.hitLinefill r else (r, c)
        requestLoop clearLinefill fuel (i + 1) (c.process cfg i false atLinefillBuf r)
      else if c.canLookup then
        let (r, c) := c.operationBegin cfg r
        let atLinefillBuf := c.hitLinefillBuf r && !clearLinefill
        let (r, c) := if atLinefillBuf then c.hitLinefill r else (r, c)
        c.process cfg i true atLinefillBuf r
      else c

/-- Remove requests from the front while they are expired and cancelled. -/
def dropLoop : ℕ → Cache ν ι → Cache ν ι
  | 0, c => c
  | fuel + 1, c =>
    match c.requests.head? with
    | some r =>
      if r.expired && r.cancelled then
        dropLoop fuel ((c.operationEnd cfg r).onMemory (·.removeRequest 0))
      else c
    | none => c

def lookupTimes : Cache ν ι :=
  let c :=
    if c.lookupDisableTimes.head? = some c.currTime then
      { c with canLookup := false, lookupDisableTimes := c.lookupDisableTimes.tail }
    else c
  if c.lookupEnableTimes.head? = some c.currTime then
    { c with canLookup := true, lookupEnableTimes := c.lookupEnableTimes.tail }
  else c

def beginCycle : Cache ν ι :=
  let c := c.onMemory fun m => (m.saveQueueStatus cfg.toMemoryConfig).checkDelayedUnlock
  { c.lookupTimes with memDataBusBusy := false, serializedValid := true }

def preCycle : Cache ν ι :=
  let c := c.beginCycle cfg
  let (clearLinefill, c) := dataPhase cfg c.actions.length false c
  let c := { c with
    nActions := BitVec.ofNat 32 c.actions.length
    linefillRequestBlock := c.linefillRequestBlock - 1 }
  let c := requestLoop cfg clearLinefill (c.requests.length + 1) 0 c
  let c := if clearLinefill then { c with linefill := c.linefill.clear } else c
  dropLoop cfg (c.requests.length + 1) c

/-! ### The end of a cycle -/

def checkSerialized (serialized : BitVec 32) : Bool :=
  serialized &&& cfg.next.levelMask = 0 || c.serializedValid

/-- Change an action. -/
def modifyAction (i : ℕ) (f : NextLevelAction → NextLevelAction) : Cache ν ι :=
  { c with actions := c.actions.modify i f }

def startLinefill (i : ℕ) (a : NextLevelAction) : Cache ν ι :=
  let c :=
    if c.linefill.lazyWriteback && !c.linefill.empty && c.linefill.loaded then
      match c.writeBackLinefill cfg with
      | (true, c) => { c with linefill := c.linefill.clear }
      | (false, c) => c
    else c
  if c.linefill.empty then
    { c.modifyAction i ({ · with started := true }) with
      linefill := c.linefill.init (cfg.linefillWidth c.iss a.ea a.addr) a.id a.ea a.addr a.lineSet
        a.lineWay (a.requestType ≠ .cacheIFetch)
      linefillIds := c.linefillIds.tail }
  else if cfg.consecutiveLinefills && c.linefill.allsent && !c.linefill.hasExtra &&
      c.linefillRequestBlock = 0 then
    { c with linefill := c.linefill.setupExtra a.ea a.addr }
  else c

/-- Plan when lookups are disabled for a linefill that has just started. -/
def lockLookups (a : NextLevelAction) (wasValid : Bool) : Cache ν ι :=
  let lockTime :=
    if cfg.linefillLockOnValid && !wasValid then 0
    else cfg.linefillLockCycle + if a.hasParallelEvict then cfg.evictLockCycle else 0
  if lockTime = 0 then c
  else
    let disableTime := c.currTime + cfg.linefillLockHoldoffCycle
    let enableTime := disableTime + lockTime
    let disableTime :=
      if cfg.linefillLockHoldoffCycle = 1 ∧ a.replaceLine = false ∧ c.memDataBusBusy = false then
        disableTime + 1
      else disableTime
    if c.lookupEnableTimes.getLast?.all (· < disableTime) then
      { c with
        lookupDisableTimes := c.lookupDisableTimes ++ [disableTime]
        lookupEnableTimes := c.lookupEnableTimes ++ [enableTime] }
    else if c.lookupEnableTimes.getLast?.any (· < enableTime) then
      { c with lookupEnableTimes := c.lookupEnableTimes.dropLast ++ [enableTime] }
    else c

/-- Whether the action at index `i` has been started. -/
def startedAt (i : ℕ) : Bool := (c.actions[i]?).any (·.started)

/-- Send the requests of the linefill buffer, and the extra request. -/
def sendLinefill (i : ℕ) : Bool × Cache ν ι :=
  let (continueAct, c) :=
    if c.startedAt i then
      let (continueAct, linefill, memory) := c.linefill.sendRequest cfg.next c.memory
      (continueAct, { c with linefill := linefill, memory := memory })
    else (false, c)
  if c.linefill.hasExtra then
    let (continueAct, linefill, memory) := c.linefill.sendExtraRequest cfg.next c.memory
    (continueAct, { c with linefill := linefill, memory := memory })
  else (continueAct, c)

def postLinefill (i : ℕ) (a : NextLevelAction) : Bool × Cache ν ι :=
  let wasValid := !c.linefill.empty
  let c := if a.started then c else c.startLinefill cfg i a
  let freshLinefill := c.startedAt i && !c.linefill.isStarted
  let (continueAct, c) := c.sendLinefill cfg i
  (continueAct, if freshLinefill && c.linefill.isStarted then c.lockLookups cfg a wasValid else c)

/-- Start an eviction, if the buffer is free: the line is copied to it. -/
def startEvict (i : ℕ) (a : NextLevelAction) : Cache ν ι :=
  let tag := c.iss.tag a.lineSet a.lineWay
  if c.evictBuf.empty then
    { c.modifyAction i ({ · with started := true }) with
      evictBuf := c.evictBuf.init (cfg.linefillWidth c.iss 0 tag) a.id 0 tag
        (c.iss.data a.lineSet a.lineWay) }
  else c

def postEvict (i : ℕ) (a : NextLevelAction) : Bool × Cache ν ι :=
  let c := if a.started then c else c.startEvict cfg i a
  if c.startedAt i then
    let (continueAct, evictBuf, memory) := c.evictBuf.sendRequest cfg.next c.memory
    (continueAct, { c with evictBuf := evictBuf, memory := memory })
  else (false, c)

/-- Send the request of a read that is not allocated. -/
def postRead (i : ℕ) (a : NextLevelAction) : Bool × Cache ν ι :=
  match a.started, c.deref a.request with
  | false, some r =>
    if cfg.next.sendRequestInquire c.memory r.type 0 && c.checkSerialized cfg r.serialized then
      let (id, memory) := cfg.next.sendRequest c.memory
        { type := r.type, ea := r.ea, addr := r.addr, size := r.dataWidth.toNat,
          serialized := r.serialized }
      (true, { c.modifyAction i ({ · with started := true, requestId := id })
          with memory := memory })
    else (false, c)
  | started, _ => (started, c)

def storeRequest (storeBufId : ℕ) (a : NextLevelAction) : Option NextRequest :=
  if a.useStoreBuf then
    (c.storeBuf[storeBufId]?).bind fun e =>
      if c.timeAtOrPassed (e.time + cfg.write2nextLatency) then
        some { type := .cacheWrite, ea := e.ea, addr := e.addr, size := e.dataWidth.toNat,
               serialized := e.serialized, hint := e.hint, data := some e.data,
               writeThrough := e.writeThrough }
      else none
  else
    (c.deref a.request).map fun r =>
      { type := .cacheWrite, ea := r.ea, addr := r.addr, size := r.dataWidth.toNat,
        serialized := r.serialized, hint := r.hint, writeThrough := r.writeThrough }

def postStore (storeBufId i : ℕ) (a : NextLevelAction) : Bool × Cache ν ι :=
  match a.started, c.storeRequest cfg storeBufId a with
  | false, some r =>
    if cfg.next.sendRequestInquire c.memory .cacheWrite r.serialized then
      let (id, memory) := cfg.next.sendRequest c.memory r
      (true, { c.modifyAction i ({ · with started := true, requestId := id })
          with memory := memory })
    else (false, c)
  | started, _ => (started, c)

def postAction (storeBufId i : ℕ) (a : NextLevelAction) : Bool × Cache ν ι :=
  match a.type with
  | .linefill => c.postLinefill cfg i a
  | .evict => c.postEvict cfg i a
  | .readNext => c.postRead cfg i a
  | .storeNext => c.postStore cfg storeBufId i a

/-- Go through the actions of this cycle until one cannot be sent. -/
def postLoop : ℕ → ℕ → ℕ → Cache ν ι → Cache ν ι
  | 0, _, _, c => c
  | fuel + 1, storeBufId, i, c =>
    match c.actions[i]? with
    | none => c
    | some a =>
      match c.postAction cfg storeBufId i a with
      | (true, c) =>
        let usesBuf := a.type = .storeNext && a.useStoreBuf
        postLoop fuel (if usesBuf then storeBufId + 1 else storeBufId) (i + 1) c
      | (false, c) => c

def postCycle : Cache ν ι := postLoop cfg (min c.nActions.toNat c.actions.length) 0 0 c

/-! ### Clients -/

def linefillBlockInquire (serialized : BitVec 32) : Bool :=
  match cfg.blockOnCriticalWord with
  | .bcwFalse => true
  | .bcwSerialized => serialized &&& cfg.next.levelMask = 0 || !c.linefill.criticalWordReceived
  | .bcwTrue => !c.linefill.criticalWordReceived

def sendRequestInquire (iid : Option ℕ) (type : CacheAccess) (serialized : BitVec 32) (portId : ℕ) :
    Bool :=
  !c.hasCommand && c.linefillBlockInquire cfg serialized &&
    c.toMemory.sendRequestInquire cfg.toMemoryConfig iid type serialized portId

def sendRequest (portId : ℕ) (r : ClientRequest) : Cache ν ι := c.onMemory (·.sendRequest portId r)

def read : Cache ν ι :=
  let c := c.onMemory fun m => m.modifyPort 0 (·.consumeDataBandwidth m.currTime)
  let c := (c.requests.head?).elim c (c.operationEnd cfg)
  c.onMemory (·.removeRequest 0)

def writeInquire (iid : Option ℕ) (id : ReqId) : Bool :=
  c.toMemory.requestInquire iid 0 id &&
    (c.requests.head?).any fun r =>
      (!r.useStoreBuf || cfg.storeBufSize = 0 || c.storeBuf.length ≤ cfg.storeBufSize) &&
        (r.action ≠ .cacheNone || r.useStoreBuf ||
          (c.actions.head?).any fun a =>
            a.started && a.id = id && a.type = .storeNext &&
              cfg.next.writeInquire c.memory a.requestId)

/-- The store of a write that misses goes to the buffer or to the next level. -/
def writeStore (r : MemoryRequest) (data : ℕ → Byte) : Cache ν ι :=
  if r.useStoreBuf then
    let entry : StoreBufEntry :=
      { ea := r.ea, addr := r.addr, dataWidth := r.dataWidth, serialized := r.serialized,
        time := c.currTime, hint := r.hint, writeThrough := r.writeThrough, data := data }
    { c with
      storeBuf := c.storeBuf ++ [entry]
      -- the request goes away
      actions := (c.actions.findIdx? (·.id = r.id)).elim c.actions fun k =>
        c.actions.modify k ({ · with request := none }) }
  else if r.action = .cacheNone then
    { c with
      memory := (c.actions.head?).elim c.memory fun a => cfg.next.write c.memory a.requestId data
      memDataBusBusy := true
      actions := c.actions.tail
      nActions := c.nActions - 1 }
  else c

/-- A write that hits copies its data to the line or to the linefill buffer. -/
def copyData (r : MemoryRequest) (data : ℕ → Byte) : Cache ν ι :=
  match r.data with
  | .loc l => c.storeBytes l data r.dataWidth.toNat
  | _ => c

def writeData (r : MemoryRequest) (data : ℕ → Byte) : Cache ν ι :=
  let c := (c.copyData r data).operationEnd cfg r
  if c.linefill.hasEntry r.addr then { c with linefill := { c.linefill with dirty := true } } else c

def write (data : ℕ → Byte) : Cache ν ι :=
  let c := c.onMemory fun m => m.modifyPort 0 (·.consumeDataBandwidth m.currTime)
  match c.requests.head? with
  | none => c
  | some r => ((c.writeData cfg r data).writeStore cfg r data).onMemory (·.removeRequest 0)

def commandInquire : Bool := c.linefill.quiet && (c.ports[0]?).all (·.emptyRequests)

def sendCommand (r : ClientRequest) (lineSet lineWay : BitVec 32) : Cache ν ι :=
  let c := { c.onMemory (·.sendRequest 0 r) with command := r.type }
  c.onMemory (·.modifyPort 0 fun p => p.modifyRequest (p.requests.length - 1) fun r =>
    if r.lineSet.slt 0 && r.lineWay.slt 0 then { r with lineSet := lineSet, lineWay := lineWay }
    else r)

/-- Forget the reads and stores of a request. The number of actions of this cycle is counted down
by a comparison with its old value. -/
def cancelNextLevel (next : NextLevel ν) (id : ReqId) (saved : ℕ) :
    ℕ → List NextLevelAction → ν → BitVec 32 → List NextLevelAction × ν × BitVec 32
  | _, [], m, n => ([], m, n)
  | count, a :: rest, m, n =>
    if a.id = id ∧ (a.type = .readNext ∨ a.type = .storeNext) then
      cancelNextLevel next id saved count rest (if a.started then next.cancel m a.requestId else m)
        (if count < saved then n - 1 else n)
    else
      let (rest, m, n) := cancelNextLevel next id saved (count + 1) rest m n
      (a :: rest, m, n)

def cancelNextLevelRequest (id : ReqId) : Cache ν ι :=
  let (actions, memory, nActions) :=
    cancelNextLevel cfg.next id c.nActions.toNat 0 c.actions c.memory c.nActions
  { c with actions := actions, memory := memory, nActions := nActions }

/-- Find the requests of the actions again. Actions without a request are forgotten, but for
linefills and stores. -/
def fixActions (find : ReqId → Option (ℕ × ℕ)) (saved : ℕ) :
    ℕ → List NextLevelAction → BitVec 32 → List NextLevelAction × BitVec 32
  | _, [], n => ([], n)
  | count, a :: rest, n =>
    if a.type ≠ .linefill ∧ a.type ≠ .storeNext ∧ find a.id = none then
      fixActions find saved count rest (if count < saved then n - 1 else n)
    else
      let (rest, n) := fixActions find saved (count + 1) rest n
      ({ a with request := find a.id } :: rest, n)

def findPointer (portId : ℕ) (id : ReqId) : Option (ℕ × ℕ) :=
  ((c.ports[portId]?).bind (·.findRequest id)).map (portId, ·)

def postCancelRequest (portId : ℕ) : Cache ν ι :=
  let (actions, nActions) :=
    fixActions (c.findPointer portId) c.nActions.toNat 0 c.actions c.nActions
  { c with actions := actions, nActions := nActions }

/-- Writes are cancelled in the next level also when they are only marked. -/
def cancel (portId : ℕ) (id : ReqId) (deep : Bool) : Cache ν ι :=
  match (c.ports[portId]?).bind (·.findRequestIdx id) with
  | none => c.onMemory (·.checkWaitingForCancel id deep)
  | some index =>
    let isWrite := ((c.ports[portId]?).bind (·.requests[index]?)).any (·.isWrite)
    let c := if deep || isWrite then c.cancelNextLevelRequest cfg id else c
    if deep then
      ((c.onMemory (·.modifyPort portId (·.removeRequest index))).postCancelRequest
        portId).onMemory (·.addWaitingRequest portId)
    else c.onMemory (·.modifyPort portId (·.modifyRequest index ({ · with cancelled := true })))

end Cache

/-! ### Operations -/

/-- What the clients of a cache and the clock do. Requests come to any port; only those of the first
one are looked up, so that no other request can be read or written. -/
inductive CacheOp where
  | send (portId : ℕ) (iid : Option ℕ) (request : ClientRequest)
  | read (iid : Option ℕ) (id : ReqId)
  | write (iid : Option ℕ) (id : ReqId) (data : ℕ → Byte)
  | command (request : ClientRequest) (lineSet lineWay : BitVec 32)
  | cancel (portId : ℕ) (id : ReqId) (deep : Bool)
  /-- The start of the cycle with this time. -/
  | preCycle (time : ℕ)
  | postCycle

def Cache.exec (cfg : Config ν ι) (c : Cache ν ι) : CacheOp → Cache ν ι
  | .send portId iid request =>
    if c.sendRequestInquire cfg iid request.type request.serialized portId then
      c.sendRequest portId request else c
  | .read iid id => if c.toMemory.requestInquire iid 0 id then c.read cfg else c
  | .write iid id data => if c.writeInquire cfg iid id then c.write cfg data else c
  | .command request lineSet lineWay =>
    if c.commandInquire then c.sendCommand request lineSet lineWay else c
  | .cancel portId id deep => c.cancel cfg portId id deep
  | .preCycle time => { c with currTime := time }.preCycle cfg
  | .postCycle => c.postCycle cfg

end Adl.Uadl
