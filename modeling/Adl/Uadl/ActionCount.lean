import Adl.Math.Countdown
import Adl.Uadl.StoreLimit

/-!
# The actions of a cycle

At the end of a cycle, a cache only sends the requests of the actions that were in the queue at its
start, the first of the queue. They are counted, and the count goes down when an action is done or
cancelled. Both parts of a cancel compare the place of an action in the queue at that time with the
count from before the part, so newer actions can be taken for older ones.
-/

namespace Adl.Uadl

variable {ν ι : Type*}

/-! ### Counting -/

namespace Cache

variable {cfg : Config ν ι} {c c' : Cache ν ι}

@[simp] theorem length_slots : c.evictQueue.slots.length = c.actions.length := List.length_map ..

theorem Starts.slots_eq {i : ℕ} (h : Starts c i c') :
    c'.evictQueue.slots.length = c.evictQueue.slots.length ∧
      ∀ k, i < k → c'.evictQueue.slots.drop k = c.evictQueue.slots.drop k := by
  obtain heq | ⟨s, -, -, heq⟩ := h <;> rw [heq]
  · exact ⟨rfl, fun _ _ => rfl⟩
  · exact ⟨List.length_modify .., fun k hk => List.drop_modify_of_lt _ _ _ _ hk⟩

theorem postLoop_slots {fuel storeBufId i k : ℕ} (hk : i + fuel ≤ k) :
    (postLoop cfg fuel storeBufId i c).evictQueue.slots.length = c.evictQueue.slots.length ∧
      (postLoop cfg fuel storeBufId i c).evictQueue.slots.drop k = c.evictQueue.slots.drop k := by
  induction fuel generalizing storeBufId i c with
  | zero => exact ⟨rfl, rfl⟩
  | succ fuel ih =>
    rw [postLoop]
    cases ha : c.actions[i]? with
    | none => exact ⟨rfl, rfl⟩
    | some a =>
      have hstarts := (@starts_postAction _ _ cfg c i storeBufId a ha).slots_eq
      dsimp only
      rcases hpost : c.postAction cfg storeBufId i a with ⟨_ | _, c'⟩ <;> rw [hpost] at hstarts
      · exact ⟨hstarts.1, hstarts.2 k (by omega)⟩
      · obtain ⟨hlength, hdrop⟩ := @ih c' (if a.type = .storeNext && a.useStoreBuf then
          storeBufId + 1 else storeBufId) (i + 1) (by omega)
        exact ⟨hlength.trans hstarts.1, hdrop.trans (hstarts.2 k (by omega))⟩

end Cache

/-- A write that does not use the store buffer takes its store from the queue. -/
def Cache.takesStore (c : Cache ν ι) : Bool :=
  (c.requests.head?).any fun r => !r.useStoreBuf && r.action = .cacheNone

section Write

variable {cfg : Config ν ι} {c : Cache ν ι}

theorem Cache.write_slots {data : ℕ → Byte} :
    if c.takesStore then
      (c.write cfg data).evictQueue.slots = c.evictQueue.slots.tail ∧
        (c.write cfg data).nActions = c.nActions - 1
    else
      (c.write cfg data).evictQueue.slots = c.evictQueue.slots ∧
        (c.write cfg data).nActions = c.nActions := by
  rw [write, requests_consumeDataBandwidth, takesStore]
  cases c.requests.head? with
  | none => exact ⟨rfl, rfl⟩
  | some r =>
    have hcontrol : ((c.onMemory fun m =>
        m.modifyPort 0 (·.consumeDataBandwidth m.currTime)).writeData cfg r data).control =
        c.control := control_writeData.trans (control_onMemory rfl)
    dsimp only
    generalize (c.onMemory fun m => m.modifyPort 0 (·.consumeDataBandwidth m.currTime)).writeData
      cfg r data = c' at hcontrol ⊢
    have hq : c'.evictQueue = c.evictQueue := evictQueue_of_control hcontrol
    have hcount : c'.nActions = c.nActions :=
      (Grows.of_control hcontrol).nActions
    rw [Option.any_some, ← hq, ← hcount, writeStore]
    cases r.useStoreBuf with
    | true =>
      refine ⟨?_, rfl⟩
      cases c'.actions.findIdx? (·.id = r.id) with
      | none => simp [onMemory, evictQueue]
      | some k =>
        simp only [onMemory, evictQueue, ↓reduceIte, Option.elim_some]
        exact Math.map_modify_of_eq fun _ => rfl
    | false =>
      by_cases haction : r.action = .cacheNone
      · simp [haction, onMemory, evictQueue]
      · simp [haction, onMemory, evictQueue]

theorem Cache.slots_of_takesStore {iid : Option ℕ} {id : ReqId}
    (h : c.writeInquire cfg iid id = true) (htakes : c.takesStore = true) :
    ∃ x l, c.evictQueue.slots = x :: l ∧ x.started = true := by
  rw [takesStore, Option.any_eq_true] at htakes
  obtain ⟨r, hr, htakes⟩ := htakes
  rw [Bool.and_eq_true, Bool.not_eq_true', decide_eq_true_iff] at htakes
  obtain ⟨hbuf, haction⟩ := htakes
  rw [writeInquire, hr] at h
  cases hactions : c.actions with
  | nil => simp [hbuf, haction, hactions] at h
  | cons a rest =>
    have hstarted : a.started = true := by
      simp [hbuf, haction, hactions] at h
      exact h.2.1.1.1
    exact ⟨a.slot, rest.map (·.slot), by rw [evictQueue, hactions]; rfl, hstarted⟩

end Write

/-! ### Watching -/

/-- A cache, with the number of actions that are left from the start of the cycle. They are the
first in the queue. -/
structure Watched (ν ι : Type*) where
  cache : Cache ν ι
  old : ℕ

/-- A cancel also forgets what was sent to the next level, if it removes its request or if that is
a write. -/
def Cache.cancelsNext (c : Cache ν ι) (portId : ℕ) (id : ReqId) (deep : Bool) : Bool :=
  ((c.ports[portId]?).bind (·.findRequestIdx id)).any fun index =>
    deep || ((c.ports[portId]?).bind (·.requests[index]?)).any (·.isWrite)

namespace Watched

def slots (s : Watched ν ι) : List Slot := s.cache.evictQueue.slots

def Counted (s : Watched ν ι) : Prop :=
  s.cache.nActions.toNat = s.old ∧ s.old ≤ s.cache.actions.length

def left (s : Watched ν ι) (keep : Slot → Bool) : ℕ := (s.slots.take s.old).countP keep

/-- No newer action is taken for an older one, up to the width of the count. -/
def exactFor (s : Watched ν ι) (keep : Slot → Bool) : Bool :=
  Math.miscounted keep s.old s.slots % 2 ^ 32 = 0

def cancelNextLevelRequest (cfg : Config ν ι) (s : Watched ν ι) (portId : ℕ) (id : ReqId)
    (deep : Bool) : Watched ν ι :=
  if s.cache.cancelsNext portId id deep then
    ⟨s.cache.cancelNextLevelRequest cfg id, s.left (!Cache.cancelled id ·)⟩
  else s

def removed (s : Watched ν ι) (portId index : ℕ) : Cache ν ι :=
  s.cache.onMemory (·.modifyPort portId (·.removeRequest index))

def cancelRequest (s : Watched ν ι) (portId : ℕ) (id : ReqId) (deep : Bool) : Watched ν ι :=
  match (s.cache.ports[portId]?).bind (·.findRequestIdx id) with
  | none => { s with cache := s.cache.onMemory (·.checkWaitingForCancel id deep) }
  | some index =>
    if deep then
      { cache := ((s.removed portId index).postCancelRequest portId).onMemory
          (·.addWaitingRequest portId)
        old := s.left (Cache.stays ((s.removed portId index).findPointer portId)) }
    else
      { s with
        cache := s.cache.onMemory
          (·.modifyPort portId (·.modifyRequest index ({ · with cancelled := true }))) }

/-- The state after an operation that is not a cancel. -/
def next (cfg : Config ν ι) (s : Watched ν ι) (op : CacheOp) : Watched ν ι where
  cache := s.cache.exec cfg op
  old :=
    match op with
    | .preCycle time => ({ s.cache with currTime := time }.dataDone cfg).actions.length
    | .write iid id _ =>
      if s.cache.writeInquire cfg iid id && s.cache.takesStore then s.old - 1 else s.old
    | _ => s.old

/-- An operation, with the states that it goes through. -/
def exec (cfg : Config ν ι) (s : Watched ν ι) (op : CacheOp) :
    List (Watched ν ι) × Watched ν ι :=
  match op with
  | .cancel portId id deep =>
    let s₁ := s.cancelNextLevelRequest cfg portId id deep
    let s₂ := s₁.cancelRequest portId id deep
    ([s₁, s₂], s₂)
  | op => ([s.next cfg op], s.next cfg op)

/-- Operations that do not take newer actions for older ones. -/
def exact (cfg : Config ν ι) (s : Watched ν ι) : CacheOp → Bool
  | .preCycle time => ({ s.cache with currTime := time }.dataDone cfg).actions.length < 2 ^ 32
  | .cancel portId id deep =>
    (!s.cache.cancelsNext portId id deep || s.exactFor (!Cache.cancelled id ·)) &&
      let s := s.cancelNextLevelRequest cfg portId id deep
      !deep || ((s.cache.ports[portId]?).bind (·.findRequestIdx id)).all fun index =>
        s.exactFor (Cache.stays ((s.removed portId index).findPointer portId))
  | _ => true

variable {cfg : Config ν ι} {s s' : Watched ν ι}

theorem exec_cache {op : CacheOp} : (s.exec cfg op).2.cache = s.cache.exec cfg op := by
  cases op with
  | cancel portId id deep =>
    rw [exec, Cache.exec, Cache.cancel]
    dsimp only
    rw [cancelNextLevelRequest, Cache.cancelsNext]
    cases hindex : (s.cache.ports[portId]?).bind (·.findRequestIdx id) with
    | none => simp [cancelRequest, hindex]
    | some index =>
      rw [Option.any_some]
      dsimp only
      split
      · have hports : ((s.cache.cancelNextLevelRequest cfg id).ports[portId]?).bind
            (·.findRequestIdx id) = some index := hindex
        rw [cancelRequest, hports]
        cases deep <;> rfl
      · rw [cancelRequest, hindex]
        cases deep <;> rfl
  | _ => rfl

/-! ### One operation -/

/-- The count is right, and newer actions have not started. -/
structure Tracked (s : Watched ν ι) : Prop where
  counted : s.Counted
  fresh : ∀ x ∈ s.slots.drop s.old, x.started = false

theorem Tracked.congr (h : s.Tracked) (hslots : s'.slots = s.slots)
    (hcount : s'.cache.nActions = s.cache.nActions) (hold : s'.old = s.old) : s'.Tracked := by
  have hlength : s'.cache.actions.length = s.cache.actions.length := by
    rw [← Cache.length_slots, ← Cache.length_slots]
    exact congrArg List.length hslots
  refine ⟨⟨?_, ?_⟩, ?_⟩
  · rw [hcount, hold, h.counted.1]
  · rw [hold, hlength]
    exact h.counted.2
  · rw [hslots, hold]
    exact h.fresh

theorem tracked_of_split {first rest : List Slot} (hslots : s.slots = first ++ rest)
    (hold : s.old = first.length) (hrest : ∀ x ∈ rest, x.started = false) :
    (s.Counted ↔ s.cache.nActions.toNat = s.old) ∧ (s.Counted → s.Tracked) := by
  have hle : s.old ≤ s.cache.actions.length := by
    rw [← Cache.length_slots, hold]
    exact (List.length_append ▸ Nat.le_add_right ..).trans_eq (congrArg List.length hslots.symm)
  refine ⟨and_iff_left hle, fun hcounted => ⟨hcounted, ?_⟩⟩
  rw [hslots, hold, List.drop_left]
  exact hrest

theorem Tracked.pass (h : s.Tracked) {keep : Slot → Bool} (hslots : s'.slots = s.slots.filter keep)
    (hcount : s'.cache.nActions = s.cache.nActions -
      BitVec.ofNat 32 (Math.countdown keep s.cache.nActions.toNat 0 s.slots))
    (hold : s'.old = s.left keep) :
    (s'.Counted ↔ s.exactFor keep = true) ∧ (s'.Counted → s'.Tracked) := by
  obtain ⟨hn, hle⟩ := h.counted
  have hk : s.old ≤ s.slots.length := hle.trans_eq Cache.length_slots.symm
  -- the first actions that are kept are the first afterwards
  have hsplit : s'.slots =
      (s.slots.take s.old).filter keep ++ (s.slots.drop s.old).filter keep := by
    rw [hslots, ← List.filter_append, List.take_append_drop]
  obtain ⟨hcounted, htracked⟩ := tracked_of_split hsplit
    (hold.trans (List.countP_eq_length_filter ..)) fun x hx => h.fresh x (List.mem_filter.mp hx).1
  refine ⟨hcounted.trans ?_, htracked⟩
  have hsum : s.old = s.left keep + (s.slots.take s.old).countP (!keep ·) := by
    have htake := List.length_eq_countP_add_countP keep (l := s.slots.take s.old)
    rw [List.length_take_of_le hk] at htake
    simpa [left] using htake
  -- older actions that are erased are counted once each, so only the miscounted ones are wrong
  have hlt := s.cache.nActions.isLt
  rw [hcount, hn, Math.countdown_eq hk, hold, exactFor, decide_eq_true_iff, BitVec.toNat_sub,
    BitVec.toNat_ofNat, hn]
  omega

theorem Tracked.write (h : s.Tracked) {iid : Option ℕ} {id : ReqId} {data : ℕ → Byte} :
    (s.next cfg (.write iid id data)).Tracked := by
  by_cases hinq : s.cache.writeInquire cfg iid id = true
  case neg =>
    refine h.congr ?_ ?_ ?_ <;> simp [next, Cache.exec, slots, hinq]
  case pos =>
    have hcache : (s.next cfg (.write iid id data)).cache = s.cache.write cfg data := if_pos hinq
    have hwrite := @Cache.write_slots _ _ cfg s.cache data
    by_cases htakes : s.cache.takesStore = true
    case neg =>
      rw [if_neg htakes] at hwrite
      exact h.congr ((congrArg (·.evictQueue.slots) hcache).trans hwrite.1)
        ((congrArg Cache.nActions hcache).trans hwrite.2) (by simp [next, htakes])
    case pos =>
      rw [if_pos htakes, ← hcache] at hwrite
      obtain ⟨x, l, hslots, hstarted⟩ := Cache.slots_of_takesStore hinq htakes
      have hslots' : (s.next cfg (.write iid id data)).slots = l := by
        rw [slots, hwrite.1, hslots, List.tail_cons]
      have hold : (s.next cfg (.write iid id data)).old = s.old - 1 := by simp [next, hinq, htakes]
      have hfresh := h.fresh
      -- the first action has started, so it is an older one
      obtain ⟨k, hk⟩ : ∃ k, s.old = k + 1 := by
        refine Nat.exists_eq_succ_of_ne_zero fun hzero => ?_
        rw [hzero, slots, hslots, List.drop_zero] at hfresh
        rw [hfresh x List.mem_cons_self] at hstarted
        cases hstarted
      obtain ⟨hn, hle⟩ := h.counted
      rw [← Cache.length_slots, hslots, List.length_cons] at hle
      refine ⟨⟨?_, ?_⟩, ?_⟩
      · rw [hwrite.2, hold, BitVec.toNat_sub, hn]
        have hlt := s.cache.nActions.isLt
        have hone : (1 : BitVec 32).toNat = 1 := rfl
        rw [hone]
        omega
      · rw [hold, ← Cache.length_slots]
        exact (by omega : s.old - 1 ≤ l.length).trans_eq (congrArg List.length hslots'.symm)
      · rw [hslots', hold, hk, Nat.add_sub_cancel]
        rwa [slots, hslots, hk, List.drop_succ_cons] at hfresh

theorem tracked_preCycle {time : ℕ} :
    ((s.next cfg (.preCycle time)).Counted ↔ s.exact cfg (.preCycle time) = true) ∧
      ((s.next cfg (.preCycle time)).Counted → (s.next cfg (.preCycle time)).Tracked) := by
  have hgrows := @Cache.preCycle_grows _ _ cfg { s.cache with currTime := time }
  obtain ⟨new, hqueue, -, hnew⟩ := hgrows.queue
  have hslots : (s.next cfg (.preCycle time)).slots =
      ({ s.cache with currTime := time }.dataDone cfg).evictQueue.slots ++ new :=
    congrArg EvictQueue.slots hqueue
  obtain ⟨hcounted, htracked⟩ := tracked_of_split hslots Cache.length_slots.symm hnew
  refine ⟨hcounted.trans ?_, htracked⟩
  have hcount : (s.next cfg (.preCycle time)).cache.nActions.toNat =
      (s.next cfg (.preCycle time)).old % 2 ^ 32 :=
    (congrArg BitVec.toNat hgrows.nActions).trans (BitVec.toNat_ofNat ..)
  have hexact : s.exact cfg (.preCycle time) = true ↔
      (s.next cfg (.preCycle time)).old < 2 ^ 32 := decide_eq_true_iff
  rw [hcount, hexact]
  omega

theorem Tracked.postCycle (h : s.Tracked) : (s.next cfg .postCycle).Tracked := by
  -- the loop stops at the count, which is right here
  have hfuel : 0 + min s.cache.nActions.toNat s.cache.actions.length ≤ s.old := by
    rw [Nat.zero_add, h.counted.1]
    exact Nat.min_le_left ..
  obtain ⟨hlength, hdrop⟩ := @Cache.postLoop_slots _ _ cfg s.cache _ 0 0 s.old hfuel
  have hcounts := @Cache.counts_postLoop _ _ cfg s.cache 0
    (min s.cache.nActions.toNat s.cache.actions.length) 0
  rw [Cache.length_slots, Cache.length_slots] at hlength
  refine ⟨⟨?_, ?_⟩, ?_⟩
  · exact (congrArg (·.1.toNat) hcounts).trans h.counted.1
  · exact h.counted.2.trans_eq hlength.symm
  · intro x hx
    exact h.fresh x (hdrop ▸ hx)

theorem Tracked.cancel (h : s.Tracked) {portId : ℕ} {id : ReqId} {deep : Bool} :
    ((∀ x ∈ (s.exec cfg (.cancel portId id deep)).1, x.Counted) ↔
        s.exact cfg (.cancel portId id deep) = true) ∧
      ((∀ x ∈ (s.exec cfg (.cancel portId id deep)).1, x.Counted) →
        (s.exec cfg (.cancel portId id deep)).2.Tracked) := by
  -- a cancel drops the actions of its request first, and then takes the request away
  have hfirst : ((s.cancelNextLevelRequest cfg portId id deep).Counted ↔
      (!s.cache.cancelsNext portId id deep || s.exactFor (!Cache.cancelled id ·)) = true) ∧
      ((s.cancelNextLevelRequest cfg portId id deep).Counted →
        (s.cancelNextLevelRequest cfg portId id deep).Tracked) := by
    rw [cancelNextLevelRequest]
    cases s.cache.cancelsNext portId id deep with
    | false => exact ⟨iff_of_true h.counted rfl, fun _ => h⟩
    | true =>
      rw [if_pos rfl, Bool.not_true, Bool.false_or]
      exact h.pass (congrArg EvictQueue.slots Cache.evictQueue_cancelNextLevelRequest)
        Cache.cancelNextLevel_eq.2 rfl
  have hsecond : ∀ {s : Watched ν ι}, s.Tracked →
      ((s.cancelRequest portId id deep).Counted ↔
        (!deep || ((s.cache.ports[portId]?).bind (·.findRequestIdx id)).all fun index =>
          s.exactFor (Cache.stays ((s.removed portId index).findPointer portId))) = true) ∧
      ((s.cancelRequest portId id deep).Counted → (s.cancelRequest portId id deep).Tracked) := by
    intro s h
    rw [cancelRequest]
    cases (s.cache.ports[portId]?).bind (·.findRequestIdx id) with
    | none =>
      have hsame : Tracked ⟨s.cache.onMemory (·.checkWaitingForCancel id deep), s.old⟩ :=
        h.congr rfl rfl rfl
      exact ⟨iff_of_true hsame.counted (by simp), fun _ => hsame⟩
    | some index =>
      cases deep with
      | false =>
        have hsame : Tracked ⟨s.cache.onMemory
            (·.modifyPort portId (·.modifyRequest index ({ · with cancelled := true }))), s.old⟩ :=
          h.congr rfl rfl rfl
        exact ⟨iff_of_true hsame.counted rfl, fun _ => hsame⟩
      | true =>
        exact h.pass (congrArg EvictQueue.slots (Cache.evictQueue_postCancelRequest
          (c := s.removed portId index))) Cache.fixActions_eq.2 rfl
  rw [exec, exact]
  dsimp only
  rw [List.forall_mem_cons, List.forall_mem_singleton, Bool.and_eq_true, ← hfirst.1]
  exact ⟨and_congr_right fun hc => (hsecond (hfirst.2 hc)).1,
    fun hc => (hsecond (hfirst.2 hc.1)).2 hc.2⟩

theorem Tracked.exec (h : s.Tracked) {op : CacheOp} :
    ((∀ x ∈ (s.exec cfg op).1, x.Counted) ↔ s.exact cfg op = true) ∧
      ((∀ x ∈ (s.exec cfg op).1, x.Counted) → (s.exec cfg op).2.Tracked) := by
  have hnext : ∀ {s' : Watched ν ι}, s'.Tracked →
      ((∀ x ∈ [s'], x.Counted) ↔ true = true) ∧ ((∀ x ∈ [s'], x.Counted) → s'.Tracked) :=
    fun h' => ⟨iff_of_true (List.forall_mem_singleton.mpr h'.counted) rfl, fun _ => h'⟩
  have hsame : ∀ {c : Cache ν ι},
      c.evictQueue.slots = s.slots ∧ c.nActions = s.cache.nActions → Tracked ⟨c, s.old⟩ :=
    fun hc => h.congr hc.1 hc.2 rfl
  cases op with
  | send portId iid request =>
    refine hnext (hsame ?_)
    rw [Cache.exec]
    split <;> exact ⟨rfl, rfl⟩
  | read iid id =>
    refine hnext (hsame ?_)
    rw [Cache.exec]
    split
    · exact ⟨congrArg EvictQueue.slots (Cache.evictQueue_of_control Cache.control_read),
        (Cache.Grows.of_control Cache.control_read).nActions⟩
    · exact ⟨rfl, rfl⟩
  | write iid id data => exact hnext h.write
  | command request lineSet lineWay =>
    refine hnext (hsame ?_)
    rw [Cache.exec]
    split <;> exact ⟨rfl, rfl⟩
  | cancel portId id deep => exact h.cancel
  | preCycle time =>
    obtain ⟨hcounted, htracked⟩ := @tracked_preCycle _ _ cfg s time
    exact ⟨List.forall_mem_singleton.trans hcounted, fun hc => htracked (hc _ List.mem_cons_self)⟩
  | postCycle => exact hnext h.postCycle

end Watched

variable {cfg : Config ν ι}

/-- The count of the actions of a cycle is right in all states of a run, also between the parts of a
cancel, exactly if no operation takes newer actions for older ones. -/
theorem nActions_counted_iff {c : Cache ν ι} (hactions : c.actions = []) (hcount : c.nActions = 0)
    {ops : List CacheOp} :
    (∀ states ∈ (Math.runs (Watched.exec cfg) ⟨c, 0⟩ ops).1, ∀ s ∈ states, s.Counted) ↔
      Math.Along (Watched.exec cfg) (fun s op => s.exact cfg op = true) ⟨c, 0⟩ ops := by
  refine Math.runs_answers_iff (P := Watched.Tracked) (fun s op hs => hs.exec) ⟨⟨?_, ?_⟩, ?_⟩
  · simp [hcount]
  · simp
  · simp [Watched.slots, Cache.evictQueue, hactions]

/-! ### Flushed lines -/

/-- A functional cache in which every access replaces a modified line, over a memory that does not
take requests. -/
def busyConfig : Config (Addr → Byte) Unit :=
  { evictConfig with next := { flatMemory with sendRequestInquire := fun _ _ _ => false } }

def flush (time : ℕ) (lineWay : BitVec 32) : List CacheOp :=
  [.command { load with type := .cacheFlush } 0 lineWay, .preCycle time, .postCycle]

/-- A load that misses, and is removed in the same cycle. -/
def cancelledLoad (time : ℕ) (id : ReqId) : List CacheOp :=
  [.send 0 none load, .preCycle time, .cancel 0 id true]

def watch (ops : List CacheOp) :
    List (List (Watched (Addr → Byte) Unit)) × Watched (Addr → Byte) Unit :=
  Math.runs (Watched.exec busyConfig) ⟨evictCache, 0⟩ ops

/-- The cancel erases the eviction of one flushed line and that of the load. -/
theorem counted_one_flush :
    (∀ states ∈ (watch (flush 1 0 ++ cancelledLoad 2 2)).1, ∀ s ∈ states, s.Counted) ∧
      (watch (flush 1 0 ++ cancelledLoad 2 2)).2.cache.actions.map (·.type) = [.linefill] := by
  refine ⟨(nActions_counted_iff rfl rfl).mpr ?_, ?_⟩ <;> decide +kernel

/-- After two flushed lines, the eviction of the load is taken for an older action. -/
theorem two_flushes_underflow :
    (watch (flush 1 0 ++ flush 2 1 ++ cancelledLoad 3 3)).2.cache.actions.map (·.type) =
        [.linefill] ∧
      (watch (flush 1 0 ++ flush 2 1 ++ cancelledLoad 3 3)).2.cache.nActions =
        0xffffffff ∧
      (watch (flush 1 0 ++ flush 2 1 ++ cancelledLoad 3 3)).2.old = 0 := by
  decide +kernel

end Adl.Uadl
