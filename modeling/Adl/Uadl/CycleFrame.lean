import Adl.Uadl.Cycle

/-!
# What the parts of a cycle leave alone

Few functions of a cache change when something is done: the times of lookups, the command, the
actions and the buffers. `control` collects what the others leave as it is, `schedule` what stays
when actions are added or started, and `work` what stays when lookups are disabled or enabled.
-/

namespace Adl.Uadl

variable {ν ι : Type*}

namespace Memory

variable {m : Memory}

theorem currTime_addWaitingRequest {portId : ℕ} :
    (m.addWaitingRequest portId).currTime = m.currTime := by
  rw [addWaitingRequest]
  split <;> rfl

theorem currTime_removeRequest {portId : ℕ} :
    (m.removeRequest portId).currTime = m.currTime :=
  currTime_addWaitingRequest

end Memory

/-- The request for which the buffer is in use. -/
def EvictBuf.user (b : EvictBuf) : Option ReqId := if b.hasData then some b.requestId else none

namespace Cache

variable {cfg : Config ν ι} {c c' : Cache ν ι} {r : MemoryRequest} {a : NextLevelAction} {i : ℕ}

/-- What the two queues are compared with, and what they decide. -/
def lookups (c : Cache ν ι) : ℕ × Bool × List ℕ × List ℕ :=
  (c.currTime, c.canLookup, c.lookupDisableTimes, c.lookupEnableTimes)

/-- The number of actions of the cycle and of stores, and the command. -/
def counts (c : Cache ν ι) : BitVec 32 × ℕ × CacheAccess :=
  (c.nActions, c.storeBuf.length, c.command)

/-- The counts with the actions and the user of the eviction buffer. -/
def work (c : Cache ν ι) : (BitVec 32 × ℕ × CacheAccess) × List NextLevelAction × Option ReqId :=
  (c.counts, c.actions, c.evictBuf.user)

/-- What adding and starting actions leaves as it is. -/
def schedule (c : Cache ν ι) := (c.lookups, c.counts)

/-- What data and requests leave as it is. -/
def control (c : Cache ν ι) := (c.lookups, c.work)

theorem counts_of_work (h : c'.work = c.work) : c'.counts = c.counts := congrArg Prod.fst h

theorem schedule_of_control (h : c'.control = c.control) : c'.schedule = c.schedule :=
  congrArg (fun x => (x.1, x.2.1)) h

theorem lookups_of_control (h : c'.control = c.control) : c'.lookups = c.lookups :=
  congrArg Prod.fst h

theorem lookups_of_schedule (h : c'.schedule = c.schedule) : c'.lookups = c.lookups :=
  congrArg Prod.fst h

theorem counts_of_control (h : c'.control = c.control) : c'.counts = c.counts :=
  congrArg (·.2.1) h

theorem counts_of_schedule (h : c'.schedule = c.schedule) : c'.counts = c.counts :=
  congrArg Prod.snd h

/-! ### Data and requests -/

theorem control_onMemory {f : Memory → Memory} (h : (f c.toMemory).currTime = c.currTime) :
    (c.onMemory f).control = c.control := by
  simp [control, lookups, work, counts, onMemory, h]

theorem control_removeRequest {portId : ℕ} :
    (c.onMemory (·.removeRequest portId)).control = c.control :=
  control_onMemory Memory.currTime_removeRequest

theorem control_modifyAt {p : Option (ℕ × ℕ)} {f : MemoryRequest → MemoryRequest} :
    (c.modifyAt p f).control = c.control := by
  cases p <;> rfl

theorem control_setCacheData {lineSet lineWay : BitVec 32} {bytes : ℕ → Byte} :
    (c.setCacheData cfg lineSet lineWay bytes).control = c.control := by
  rw [setCacheData]
  split <;> rfl

theorem control_operationBegin : (c.operationBegin cfg r).2.control = c.control := rfl

theorem control_operationEnd : (c.operationEnd cfg r).control = c.control := by
  rw [operationEnd]
  split <;> rfl

theorem control_writeBackLinefill : (c.writeBackLinefill cfg).2.control = c.control := by
  rw [writeBackLinefill]
  dsimp only
  split
  · split <;> rfl
  · exact control_setCacheData

theorem control_storeBytes {l : Loc} {v : ℕ → Byte} {n : ℕ} :
    (c.storeBytes l v n).control = c.control := by
  induction n with
  | zero => rfl
  | succ n ih =>
    rw [storeBytes, ← ih]
    generalize c.storeBytes l v n = c
    cases l with
    | store entry offset => simp [setByteAt, Loc.add, control, lookups, work, counts]
    | linefill | line => rfl

theorem control_hitLinefill {b : Bool} :
    (if b then c.hitLinefill r else (r, c)).2.control = c.control := by
  cases b with
  | false => rfl
  | true =>
    rw [if_pos rfl, hitLinefill]
    dsimp only
    split <;> rfl

theorem control_dropLoop {fuel : ℕ} : (dropLoop cfg fuel c).control = c.control := by
  induction fuel generalizing c with
  | zero => rfl
  | succ fuel ih =>
    rw [dropLoop]
    split
    · split
      · rw [ih, control_removeRequest, control_operationEnd]
      · rfl
    · rfl

theorem control_sendLinefill : (c.sendLinefill cfg i).2.control = c.control := by
  rw [sendLinefill]
  dsimp only
  split <;> split <;> rfl

theorem control_endOperation :
    ((c.requests.head?).elim c (c.operationEnd cfg)).control = c.control := by
  cases c.requests.head? with
  | none => rfl
  | some r => exact control_operationEnd

theorem control_read : (c.read cfg).control = c.control :=
  control_removeRequest.trans (control_endOperation.trans (control_onMemory rfl))

theorem control_writeData {data : ℕ → Byte} :
    (c.writeData cfg r data).control = c.control := by
  have hcopy : (c.copyData r data).control = c.control := by
    rw [copyData]
    split
    · exact control_storeBytes
    · rfl
  rw [writeData]
  split <;> exact control_operationEnd.trans hcopy

/-! ### Actions -/

theorem schedule_startLinefill : (c.startLinefill cfg i a).schedule = c.schedule := by
  rw [startLinefill]
  generalize hstart : (if c.linefill.lazyWriteback && !c.linefill.empty && c.linefill.loaded then _
    else c : Cache ν ι) = c'
  have hwrite : c'.control = c.control := by
    have hback : (c.writeBackLinefill cfg).2.control = c.control := control_writeBackLinefill
    rw [← hstart]
    split
    · rcases h : c.writeBackLinefill cfg with ⟨_ | _, c'⟩ <;> rw [h] at hback <;> exact hback
    · rfl
  rw [← schedule_of_control hwrite]
  split
  · rfl
  · split <;> rfl

theorem schedule_postEvict : (c.postEvict cfg i a).2.schedule = c.schedule := by
  have hstart : (if a.started then c else c.startEvict cfg i a).schedule = c.schedule := by
    rw [startEvict]
    split
    · rfl
    · dsimp only
      split <;> rfl
  rw [postEvict]
  generalize (if a.started then c else c.startEvict cfg i a) = c' at hstart
  dsimp only
  split <;> exact hstart

theorem schedule_postRead : (c.postRead cfg i a).2.schedule = c.schedule := by
  rw [postRead]
  split
  · split <;> rfl
  · rfl

theorem schedule_postStore {storeBufId : ℕ} :
    (c.postStore cfg storeBufId i a).2.schedule = c.schedule := by
  rw [postStore]
  split
  · split <;> rfl
  · rfl

/-! ### The data phase -/

/-- The data phase takes stores out of the buffer. -/
structure Drains (c c' : Cache ν ι) : Prop where
  lookups : c'.lookups = c.lookups
  command : c'.command = c.command
  storeBuf : c'.storeBuf.length ≤ c.storeBuf.length

namespace Drains

theorem of_schedule (h : c'.schedule = c.schedule) : Drains c c' := by
  obtain ⟨hlookups, hcounts⟩ := Prod.mk.inj h
  simp only [counts, Prod.mk.injEq] at hcounts
  exact ⟨hlookups, hcounts.2.2, hcounts.2.1.le⟩

theorem trans {c'' : Cache ν ι} (h : Drains c c') (h' : Drains c' c'') : Drains c c'' :=
  ⟨h'.lookups.trans h.lookups, h'.command.trans h.command, h'.storeBuf.trans h.storeBuf⟩

end Drains

theorem dataAction_drains {b : Bool} : Drains c (c.dataAction cfg b a).2.2 := by
  rw [dataAction]
  cases a.type with
  | linefill =>
    dsimp only
    split
    · split
      · split
        · exact .of_schedule ((schedule_of_control control_writeBackLinefill).trans rfl)
        · exact .of_schedule rfl
      · exact .of_schedule rfl
    · exact .of_schedule rfl
  | evict =>
    dsimp only
    split <;> exact .of_schedule rfl
  | readNext =>
    dsimp only
    split
    · exact .of_schedule (schedule_of_control (@control_modifyAt _ _ c _ _))
    · exact .of_schedule rfl
  | storeNext =>
    dsimp only
    split
    · -- a store that the next level takes leaves the buffer
      exact ⟨rfl, rfl, by simp⟩
    · exact .of_schedule rfl

/-- The data phase of a cycle plans no lookups and gives no command. -/
theorem dataPhase_drains {fuel : ℕ} {b : Bool} : Drains c (dataPhase cfg fuel b c).2 := by
  induction fuel generalizing b c with
  | zero => exact .of_schedule rfl
  | succ fuel ih =>
    rw [dataPhase]
    cases c.actions with
    | nil => exact .of_schedule rfl
    | cons a rest =>
      have hdata := @dataAction_drains _ _ cfg c a b
      dsimp only
      rcases hd : c.dataAction cfg b a with ⟨_ | _, b', c'⟩ <;> rw [hd] at hdata
      · exact hdata
      · have hrest := @ih { c' with actions := c'.actions.tail } b'
        exact hdata.trans ⟨hrest.lookups, hrest.command, hrest.storeBuf⟩

/-! ### Times of lookups -/

theorem work_lookupTimes : c.lookupTimes.work = c.work := by
  simp only [lookupTimes, work, counts, apply_ite nActions, apply_ite storeBuf, apply_ite command,
    apply_ite actions, apply_ite evictBuf, ite_self]

theorem work_lockLookups {wasValid : Bool} : (c.lockLookups cfg a wasValid).work = c.work := by
  simp only [lockLookups, work, counts, apply_ite nActions, apply_ite storeBuf, apply_ite command,
    apply_ite actions, apply_ite evictBuf, ite_self]

end Cache

end Adl.Uadl
