import Mathlib.Data.Int.Notation
import Adl.Uadl.Request

/-!
# The fetch unit

The fetch unit of a timed model sends requests for instruction data, in order, and stores the data
in entries of a fixed size in the instruction buffer. A request that starts in the middle of an
aligned block is padded at its front, and one with a branch that is predicted taken at its rear.

Entries, requests and predicted branches are in ring buffers whose size is fixed and not checked. An
entry or a request that is added to a full ring buffer makes it look empty, and the unit goes on.
That this has happened is noted in a field that the code does not have and nothing reads.
-/

namespace Adl.Uadl

/-! ### Parameters and environment -/

def numInstrBufEntries : ℕ := 64

def numPendingRequests : ℕ := 64

def numPredTakenInfo : ℕ := 64

structure FetchConfig where
  nEntries : ℕ
  entrySize : ℕ
  /-- The largest size is the first one. -/
  fetchSizes : List ℕ
  minFetchEntries : ℤ
  minInstrSize : ℕ
  maxInstrSize : ℕ
  maxFetchCount : ℕ
  /-- The distance of addresses at which a branch can be. -/
  bpStep : ℕ
  hasPredictor : Bool
  lazyFetch : Bool
  flushFetch : Bool
  canCancel : Bool
  reuseData : Bool
  safeMode : Bool
  issMemMode : Bool

namespace FetchConfig

variable (cfg : FetchConfig)

def fetchSize₀ : ℕ := cfg.fetchSizes.headD 0

def addrMask : Addr := BitVec.ofNat 64 cfg.fetchSize₀ - 1

/-- One element for each offset in a block of the largest size: the largest size that is aligned
there, or zero. -/
def addrFetchSizes : List ℕ :=
  cfg.fetchSizes.tail.foldl
    (fun masks fs => masks.mapIdx fun j m => if m = 0 ∧ fs ≤ j ∧ fs ∣ j then fs else m)
    (cfg.fetchSize₀ :: List.replicate (cfg.fetchSize₀ - 1) 0)

/-- The smallest size that reaches the end of the block. Sizes are tried from the last to the
first. -/
def reachingSize (distance : ℕ) : ℕ := (cfg.fetchSizes.reverse.find? (distance ≤ ·)).getD 0

end FetchConfig

/-- The instruction memory and the architecture, with a common state. -/
structure FetchEnv (μ : Type*) where
  sendRequestInquire : μ → Bool
  /-- Virtual and physical address and size of the request. -/
  sendFetchRequest : μ → Addr → Addr → ℕ → ReqId × μ
  readInquire : μ → ReqId → Bool
  read : μ → ReqId → (ℕ → Byte) × μ
  cancel : μ → ReqId → Bool → μ
  /-- The last-level memory. -/
  fetchMemoryData : μ → Addr → ℕ → ℕ → Byte
  hasFetchException : μ → Bool
  /-- The mask of effective addresses. -/
  ea : μ → Addr → Addr
  /-- Address translation for a flush. -/
  prefetchTranslate : μ → Addr → Addr × μ
  /-- Address translation for a fetch, with the size of its front padding and its size. It is
  `none` for a fetch exception. -/
  fetchTranslate : μ → Addr → ℕ → ℕ → Option (Addr × (ℕ → Byte)) × μ
  /-- Target and size of a branch that is predicted taken. -/
  branchPredict : μ → Addr → Option (Addr × BitVec 32) × μ

/-! ### State -/

structure InstrBufEntry where
  ea : Addr
  ra : Addr
  data : ℕ → Byte
  predTaken : Bool := false
  predTrg : Addr := 0
  instrSize : BitVec 32 := 0

structure FetchRequest where
  id : ReqId
  ea : Addr
  ra : Addr
  fetchSize : BitVec 32
  frontPadSize : BitVec 32
  rearPadSize : BitVec 32
  preempted : Bool := false
  data : ℕ → Byte

def FetchRequest.size (r : FetchRequest) : BitVec 32 := r.fetchSize - r.frontPadSize - r.rearPadSize

def FetchRequest.start (r : FetchRequest) : Addr := r.ea + r.frontPadSize.setWidth 64

structure PredTakenInfo where
  addr : Addr := 0
  target : Addr := 0
  size : BitVec 32 := 0

def PredTakenInfo.end (p : PredTakenInfo) : Addr := p.addr + p.size.setWidth 64

structure FetchUnit (μ : Type*) where
  env : μ
  canCancel : Bool
  tryNewFetch : Bool := false
  /-- Whether the next fetch is known to be aligned. -/
  alignedFetch : Bool := false
  nextFetchAddr : Addr := 0
  predTaken : Bool := false
  predTrg : Addr := 0
  instrBuf : List InstrBufEntry := []
  /-- The space that is neither used nor reserved, in bytes. -/
  currInstrBufSpace : BitVec 32
  /-- The next entry to be decoded. -/
  nextDecodeEntry : ℕ := 0
  /-- Number of entries of the last instruction. -/
  lastDecodeEntries : ℕ := 0
  pendingRequests : List FetchRequest := []
  predTakenInstrs : List PredTakenInfo := []
  /-- The last branch that was added to `predTakenInstrs`. -/
  lastPred : PredTakenInfo := {}
  /-- The last branch continues in the next fetch. -/
  incompletePredTakenInstr : Bool := false
  /-- An entry or a request has been added to a full ring buffer. -/
  overrun : Bool := false

variable {μ : Type*}

def FetchUnit.initial (cfg : FetchConfig) (m : μ) : FetchUnit μ where
  env := m
  canCancel := cfg.canCancel
  currInstrBufSpace := BitVec.ofNat 32 cfg.nEntries * BitVec.ofNat 32 cfg.entrySize

structure FetchData where
  ea : Addr
  ra : Addr
  size : ℕ
  data : ℕ → Byte

namespace FetchUnit

variable (cfg : FetchConfig) (env : FetchEnv μ) (u : FetchUnit μ)

def fullReset : FetchUnit μ :=
  { u with
    canCancel := cfg.canCancel
    nextDecodeEntry := 0
    lastDecodeEntries := 0
    incompletePredTakenInstr := false
    pendingRequests := []
    predTakenInstrs := []
    instrBuf := []
    currInstrBufSpace := BitVec.ofNat 32 cfg.nEntries * BitVec.ofNat 32 cfg.entrySize }

/-- The space that follows from buffer and requests. -/
def computedSpace : BitVec 32 :=
  (BitVec.ofNat 32 cfg.nEntries - BitVec.ofNat 32 u.instrBuf.length) *
    BitVec.ofNat 32 cfg.entrySize -
    ((u.pendingRequests.filter (!·.preempted)).map (·.size)).sum

/-- It is `none` if the assertion in it fails. The space is compared as a signed number. -/
def hasInstrSpace : Option Bool :=
  if cfg.minFetchEntries ≠ 0 then
    some (cfg.minFetchEntries ≤ (cfg.nEntries : ℤ) - u.instrBuf.length)
  else if (u.computedSpace cfg).msb ∨ u.computedSpace cfg ≠ u.currInstrBufSpace then none
  else some (BitVec.ofNat 32 cfg.fetchSize₀ ≤ u.currInstrBufSpace)

/-! ### Receiving data -/

def addEntry (e : InstrBufEntry) : FetchUnit μ :=
  { u with
    instrBuf := Math.ringPush numInstrBufEntries u.instrBuf e
    overrun := u.overrun || numInstrBufEntries ≤ u.instrBuf.length + 1 }

/-- Store one entry. It may belong to the first branch that is predicted taken. -/
def storeEntry (ea ra : Addr) (data : ℕ → Byte) : FetchUnit μ :=
  match cfg.hasPredictor, u.predTakenInstrs with
  | true, p :: rest =>
    let taken := ea = p.addr
    let entry : InstrBufEntry :=
      { ea := ea, ra := ra, data := data, predTaken := taken,
        predTrg := if taken then p.target else 0, instrSize := if taken then p.size else 0 }
    { u.addEntry entry with
      -- the branch is complete
      predTakenInstrs := if ea + BitVec.ofNat 64 cfg.entrySize = p.end then rest else p :: rest }
  | _, _ => u.addEntry { ea := ea, ra := ra, data := data }

def storeLoop (data : ℕ → Byte) : ℕ → Addr → Addr → ℕ → FetchUnit μ → FetchUnit μ
  | 0, _, _, _, u => u
  | n + 1, ea, ra, position, u =>
    storeLoop data n (ea + BitVec.ofNat 64 cfg.entrySize) (ra + BitVec.ofNat 64 cfg.entrySize)
      (position + cfg.entrySize) (u.storeEntry cfg ea ra fun j => data (position + j))

def entriesOf (r : FetchRequest) : ℕ := (r.size.toNat + cfg.entrySize - 1) / cfg.entrySize

/-- Take the data of a request. In safe mode the data comes from the last-level memory, or it came
with the translation. -/
def receive (r : FetchRequest) (rest : List FetchRequest) : FetchUnit μ :=
  let (bytes, m) := env.read u.env r.id
  let data :=
    if !cfg.safeMode then bytes
    else if !cfg.issMemMode then env.fetchMemoryData m r.ra r.fetchSize.toNat
    else r.data
  let pad := r.frontPadSize.setWidth 64
  { storeLoop cfg data (entriesOf cfg r) (r.ea + pad) (r.ra + pad) r.frontPadSize.toNat
      { u with env := m } with pendingRequests := rest }

def receiveLoop : ℕ → FetchUnit μ → FetchUnit μ
  | 0, u => u
  | fuel + 1, u =>
    match u.pendingRequests with
    | [] => u
    | r :: rest =>
      if env.readInquire u.env r.id then receiveLoop fuel (u.receive cfg env r rest) else u

def receiveInstrData : Option (FetchUnit μ) :=
  (if cfg.lazyFetch then u.hasInstrSpace cfg else some true).map fun tryNewFetch =>
    receiveLoop cfg env u.pendingRequests.length { u with tryNewFetch := tryNewFetch }

/-! ### Sending requests -/

structure Plan where
  addr : Addr
  fetchSize : ℕ
  frontPadSize : BitVec 32
  alignedFetch : Bool

/-- Fetch up to the end of the block, with the smallest size that does this. -/
def overfetch (m : μ) (a : Addr) : Plan :=
  let nextAddr := (a &&& ~~~cfg.addrMask) + BitVec.ofNat 64 cfg.fetchSize₀
  let distance := (nextAddr - a).setWidth 32
  let fetchSize := cfg.reachingSize distance.toNat
  ⟨env.ea m (nextAddr - BitVec.ofNat 64 fetchSize), fetchSize,
    BitVec.ofNat 32 fetchSize - distance, true⟩

def fetchBlock (a : Addr) : Plan :=
  let nextAddr := a &&& ~~~cfg.addrMask
  ⟨nextAddr, cfg.fetchSize₀, (a - nextAddr).setWidth 32, true⟩

/-- A fetch at an address that is not aligned starts before it. -/
def plan : Plan :=
  let a := u.nextFetchAddr
  if u.alignedFetch then ⟨a, cfg.fetchSize₀, 0, true⟩
  else if 1 < cfg.fetchSizes.length then
    let fetchIndex := (a &&& cfg.addrMask).toNat
    let fetchSize := cfg.addrFetchSizes.getD fetchIndex 0
    if fetchSize ≠ 0 then ⟨a, fetchSize, 0, fetchIndex = 0⟩ else overfetch cfg env u.env a
  else fetchBlock cfg a

/-- Ask for a branch at `n` addresses, up to the first that is predicted taken. -/
def predictLoop : ℕ → Addr → μ → Option PredTakenInfo × μ
  | 0, _, m => (none, m)
  | n + 1, addr, m =>
    match env.branchPredict m addr with
    | (some (target, size), m) => (some ⟨addr, target, size⟩, m)
    | (none, m) => predictLoop n (addr + BitVec.ofNat 64 cfg.bpStep) m

/-- The number of addresses in a fetch at which a branch can be. There is none in a fetch that
reaches the end of the address space. -/
def predictions (p : Plan) : ℕ :=
  if p.addr + p.frontPadSize.setWidth 64 < p.addr + BitVec.ofNat 64 p.fetchSize then
    (p.fetchSize - p.frontPadSize.toNat + cfg.bpStep - 1) / cfg.bpStep
  else 0

/-- Look for a branch that is predicted taken, if the last one has been fetched. -/
def predict (p : Plan) : Bool × FetchUnit μ :=
  if u.incompletePredTakenInstr then (false, u)
  else
    match predictLoop cfg env (predictions cfg p) (p.addr + p.frontPadSize.setWidth 64) u.env with
    | (some info, m) =>
      (true,
        { u with
          env := m
          predTakenInstrs := Math.ringPush numPredTakenInfo u.predTakenInstrs info
          lastPred := info })
    | (none, m) => (false, { u with env := m })

/-- The fetches after this one: the size of the rear padding, and the next address. -/
def nextAddr (p : Plan) : BitVec 32 × FetchUnit μ :=
  let fetchEnd := p.addr + BitVec.ofNat 64 p.fetchSize
  if cfg.hasPredictor then
    let (taken, u) := u.predict cfg env p
    if taken || u.incompletePredTakenInstr then
      if fetchEnd < u.lastPred.end then
        (0, { u with incompletePredTakenInstr := true, nextFetchAddr := env.ea u.env fetchEnd })
      else
        ((fetchEnd - u.lastPred.end).setWidth 32,
          { u with
            incompletePredTakenInstr := false, nextFetchAddr := u.lastPred.target,
            alignedFetch := false })
    else (0, { u with nextFetchAddr := env.ea u.env fetchEnd })
  else (0, { u with nextFetchAddr := env.ea u.env fetchEnd })

def sendRequest : Bool × FetchUnit μ :=
  let p := u.plan cfg env
  let u := { u with alignedFetch := p.alignedFetch }
  match env.fetchTranslate u.env p.addr p.frontPadSize.toNat p.fetchSize with
  | (none, m) => (false, { u with env := m, nextFetchAddr := p.addr + p.frontPadSize.setWidth 64 })
  | (some (ra, data), m) =>
    let (id, m) := env.sendFetchRequest m p.addr ra p.fetchSize
    let (rearPadSize, u) := nextAddr cfg env { u with env := m } p
    let request : FetchRequest :=
      { id := id, ea := p.addr, ra := ra, fetchSize := BitVec.ofNat 32 p.fetchSize,
        frontPadSize := p.frontPadSize, rearPadSize := rearPadSize, data := data }
    (true,
      { u with
        pendingRequests := Math.ringPush numPendingRequests u.pendingRequests request
        overrun := u.overrun || numPendingRequests ≤ u.pendingRequests.length + 1
        currInstrBufSpace := u.currInstrBufSpace - request.size })

/-- Send requests as long as there is space. The fuel is the number of requests that can be sent,
and `first` says that none has been sent. -/
def sendLoop : ℕ → Bool → FetchUnit μ → Option (FetchUnit μ)
  | 0, _, u => if env.hasFetchException u.env then some u else (u.hasInstrSpace cfg).map fun _ => u
  | fuel + 1, first, u =>
    if env.hasFetchException u.env then some u
    else
      (u.hasInstrSpace cfg).bind fun hasSpace =>
        if (hasSpace || (cfg.minFetchEntries ≠ 0 && first)) && env.sendRequestInquire u.env then
          match u.sendRequest cfg env with
          | (true, u) => sendLoop fuel false u
          | (false, u) => some u
        else some u

/-- Send the last request again, if it was preempted. The answer is whether this was done. -/
def resend : Bool × FetchUnit μ :=
  match u.pendingRequests.getLast? with
  | some r =>
    if !env.hasFetchException u.env && r.preempted && env.sendRequestInquire u.env then
      let (id, m) := env.sendFetchRequest u.env r.ea r.ra r.fetchSize.toNat
      (true,
        { u with
          env := m
          pendingRequests := u.pendingRequests.dropLast ++ [{ r with id := id, preempted := false }]
          currInstrBufSpace := u.currInstrBufSpace - r.size })
    else (false, u)
  | none => (false, u)

def sendFetchRequests : Option (FetchUnit μ) :=
  if u.tryNewFetch then
    match u.resend env with
    | (true, u) => sendLoop cfg env (cfg.maxFetchCount - 1) false u
    | (false, u) => sendLoop cfg env cfg.maxFetchCount true u
  else some u

/-! ### Flushing -/

def cancelAll (deep : Bool) (requests : List FetchRequest) : FetchUnit μ :=
  { u with
    env := requests.foldl (fun m r => env.cancel m r.id deep) u.env
    currInstrBufSpace := u.currInstrBufSpace + (requests.map (·.size)).sum }

def truncate (n : ℕ) : FetchUnit μ :=
  { u with
    instrBuf := u.instrBuf.take n
    currInstrBufSpace := u.currInstrBufSpace +
      BitVec.ofNat 32 (u.instrBuf.length - n) * BitVec.ofNat 32 cfg.entrySize }

/-- Cancel all requests. The last one may be preempted. -/
def cancelPending (deep : Bool) : FetchUnit μ :=
  let u := u.cancelAll env cfg.canCancel u.pendingRequests.dropLast
  let u :=
    match u.pendingRequests.getLast? with
    | some r => if r.preempted then u else u.cancelAll env deep [r]
    | none => u
  { u with pendingRequests := [] }

/-- Keep `remain` entries behind those that are decoded. -/
def flushInstrBuf (remain : ℕ) (newFetchAddr : Addr) (deep : Bool) : FetchUnit μ :=
  let left := min remain (u.instrBuf.length - u.nextDecodeEntry)
  let u := (u.truncate cfg (u.nextDecodeEntry + remain)).cancelPending cfg env deep
  { u with
    nextFetchAddr :=
      if left = 0 then newFetchAddr
      else
        (u.instrBuf[u.nextDecodeEntry + left - 1]?).elim newFetchAddr fun e =>
          env.ea u.env (e.ea + BitVec.ofNat 64 cfg.entrySize)
    alignedFetch := false
    predTakenInstrs := if cfg.hasPredictor then [] else u.predTakenInstrs
    incompletePredTakenInstr := !cfg.hasPredictor && u.incompletePredTakenInstr
    tryNewFetch := cfg.flushFetch || u.tryNewFetch }

/-- The first place with an address, if its physical address is the current one. -/
def findTarget (a : Addr) : List (Addr × Addr) → μ → Option ℕ × μ
  | [], m => (none, m)
  | (ea, ra) :: rest, m =>
    if ea = a then
      let (fetchRA, m) := env.prefetchTranslate m a
      if ra = fetchRA then (some 0, m)
      else
        let (found, m) := findTarget a rest m
        (found.map (· + 1), m)
    else
      let (found, m) := findTarget a rest m
      (found.map (· + 1), m)

/-- Use the data in the buffer from entry `i` behind the decoded ones on. -/
def reuseEntry (i : ℕ) : FetchUnit μ :=
  { u with
    instrBuf := u.instrBuf.take u.nextDecodeEntry ++ u.instrBuf.drop (u.nextDecodeEntry + i)
    currInstrBufSpace := u.currInstrBufSpace + BitVec.ofNat 32 i * BitVec.ofNat 32 cfg.entrySize }

/-- Use the data of request `i`. -/
def reuseRequest (i : ℕ) : FetchUnit μ :=
  let u := (u.truncate cfg u.nextDecodeEntry).cancelAll env cfg.canCancel (u.pendingRequests.take i)
  { u with pendingRequests := u.pendingRequests.drop i }

/-- Look for the target in the buffer and in the requests. -/
def reuse (a : Addr) : Bool × FetchUnit μ :=
  let entries := (u.instrBuf.drop u.nextDecodeEntry).map fun e => (e.ea, e.ra)
  match findTarget env a entries u.env with
  | (some i, m) => (true, reuseEntry cfg { u with env := m } i)
  | (none, m) =>
    match findTarget env a (u.pendingRequests.map fun r => (r.ea, r.ra)) m with
    | (some i, m) => (true, reuseRequest cfg env { u with env := m } i)
    | (none, m) => (false, { u with env := m })

/-- The answer is whether the flush is complete. -/
def flush (newFetchAddr : Addr) : Bool × FetchUnit μ :=
  let (hasTarget, u) := if cfg.reuseData then u.reuse cfg env newFetchAddr else (false, u)
  let u := if hasTarget then u else u.flushInstrBuf cfg env 0 newFetchAddr u.canCancel
  (!hasTarget, { u with canCancel := cfg.canCancel })

def cancel : FetchUnit μ :=
  match u.pendingRequests with
  | [] => u
  | r :: _ =>
    { u.flushInstrBuf cfg env u.instrBuf.length r.ea u.canCancel with canCancel := cfg.canCancel }

/-- The last request has lost its place in the memory. -/
def preemptFetch : FetchUnit μ :=
  match u.pendingRequests.getLast? with
  | some r =>
    { u with
      pendingRequests := u.pendingRequests.dropLast ++ [{ r with preempted := true }]
      currInstrBufSpace := u.currInstrBufSpace + r.size }
  | none => u

/-! ### Decoding -/

def instrData : Option FetchData × FetchUnit μ :=
  match u.instrBuf[u.nextDecodeEntry]? with
  | none => (none, u)
  | some e =>
    let u' := { u with predTaken := e.predTaken, predTrg := e.predTrg }
    if cfg.entrySize = cfg.maxInstrSize then (some ⟨e.ea, e.ra, cfg.entrySize, e.data⟩, u')
    else
      let instrSize := (u.instrBuf.length - u.nextDecodeEntry) * cfg.entrySize
      if instrSize < cfg.minInstrSize ∨ (e.predTaken ∧ instrSize < e.instrSize.toNat) then
        (none, { u with predTaken := false, predTrg := 0 })
      else
        let size := if e.predTaken then e.instrSize.toNat else min cfg.maxInstrSize instrSize
        let entries := size / cfg.entrySize
        let bytes := fun j =>
          if j < max entries 1 * cfg.entrySize then
            ((u.instrBuf[u.nextDecodeEntry + j / cfg.entrySize]?).map
              (·.data (j % cfg.entrySize))).getD 0
          else 0
        (some ⟨e.ea, e.ra, size, bytes⟩, { u' with lastDecodeEntries := entries })

/-- A branch in the middle of an instruction was a bad prediction. -/
def checkPredictions (n : ℕ) : FetchUnit μ :=
  (List.range (n - 1)).foldl (fun u k =>
    if (u.instrBuf[u.nextDecodeEntry + 1 + k]?).any (·.predTaken) then
      u.flushInstrBuf cfg env n 0 cfg.canCancel
    else u) u

def decodeUpdate (success : Bool) (size : ℕ) : FetchUnit μ :=
  if cfg.entrySize = cfg.maxInstrSize then { u with nextDecodeEntry := u.nextDecodeEntry + 1 }
  else if success then
    let u :=
      if size ≠ 0 then
        let u := { u with lastDecodeEntries := size / cfg.entrySize }
        if cfg.hasPredictor && cfg.safeMode then
          u.checkPredictions cfg env u.lastDecodeEntries else u
      else u
    { u with nextDecodeEntry := u.nextDecodeEntry + u.lastDecodeEntries }
  else if cfg.safeMode && (u.instrBuf[u.nextDecodeEntry]?).any (·.predTaken) then
    let u := { u with
      instrBuf := u.instrBuf.modify u.nextDecodeEntry ({ · with predTaken := false }) }
    u.flushInstrBuf cfg env u.lastDecodeEntries 0 cfg.canCancel
  else u

def removedEntries (size : ℕ) : ℕ :=
  if size = 0 then 0
  else if cfg.minInstrSize = cfg.maxInstrSize then cfg.minInstrSize / cfg.entrySize
  else size / cfg.entrySize

def removeInstr (size : ℕ) : FetchUnit μ :=
  if size = 0 then u
  else
    let entries := removedEntries cfg size
    let size :=
      if cfg.minInstrSize = cfg.maxInstrSize then
        BitVec.ofNat 32 entries * BitVec.ofNat 32 cfg.entrySize
      else BitVec.ofNat 32 size
    { u with
      instrBuf := u.instrBuf.drop entries
      currInstrBufSpace := u.currInstrBufSpace + size
      nextDecodeEntry := u.nextDecodeEntry - entries }

/-! ### Queries -/

def nextInstrAddr : Addr :=
  match u.instrBuf[u.nextDecodeEntry]?, u.pendingRequests with
  | some e, _ => e.ea
  | none, r :: _ => r.start
  | none, [] => u.nextFetchAddr

end FetchUnit

/-! ### Calls -/

inductive FetchOp (μ : Type*) where
  | receiveInstrData
  | sendFetchRequests
  | instrData
  | decodeUpdate (success : Bool) (size : ℕ)
  | removeInstr (size : ℕ)
  | flush (newFetchAddr : Addr)
  | cancel
  | preemptFetch
  | setCancel (canCancel : Bool)
  | pauseFetch
  | forceFetch
  | fullReset
  /-- The memory and the architecture go on. -/
  | environment (m : μ)

/-- It is `none` if an assertion fails. -/
def FetchUnit.exec (cfg : FetchConfig) (env : FetchEnv μ) (u : FetchUnit μ) :
    FetchOp μ → Option (FetchUnit μ)
  | .receiveInstrData => u.receiveInstrData cfg env
  | .sendFetchRequests => u.sendFetchRequests cfg env
  | .instrData => some (u.instrData cfg).2
  | .decodeUpdate success size => some (u.decodeUpdate cfg env success size)
  | .removeInstr size => some (u.removeInstr cfg size)
  | .flush newFetchAddr => some (u.flush cfg env newFetchAddr).2
  | .cancel => some (u.cancel cfg env)
  | .preemptFetch => some u.preemptFetch
  | .setCancel canCancel => some { u with canCancel := canCancel }
  | .pauseFetch => some { u with tryNewFetch := false }
  | .forceFetch => some { u with tryNewFetch := true }
  | .fullReset => some (u.fullReset cfg)
  | .environment m => some { u with env := m }

end Adl.Uadl
