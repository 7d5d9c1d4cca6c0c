import Adl.Math.Countdown
import Adl.Math.Machine
import Adl.Uadl.CycleFrame
import Adl.Uadl.EvictQueue
import Adl.Uadl.Separate

/-!
# Write-backs are not lost

Requests add linefills and evictions to the queue of write-backs, the data phase takes evictions
away when their lines are written, the end of the cycle starts actions, and cancelling forgets reads
and stores.

A cancel that removes its request looks for the requests of all actions afterwards, and forgets
evictions whose request is gone. So no write-back is lost as long as the requests of all evictions
outlive the cancels.
-/

namespace Adl.Uadl

variable {ν ι : Type*}

def NextLevelAction.slot (a : NextLevelAction) : Slot :=
  ⟨a.type, a.id, a.hasParallelEvict, a.lineSet, a.lineWay, a.started⟩

@[simp] theorem NextLevelAction.slot_type {a : NextLevelAction} : a.slot.type = a.type := rfl

@[simp] theorem NextLevelAction.slot_id {a : NextLevelAction} : a.slot.id = a.id := rfl

@[simp] theorem NextLevelAction.slot_started {a : NextLevelAction} :
    a.slot.started = a.started := rfl

@[simp] theorem NextLevelAction.slot_isEvict {a : NextLevelAction} :
    a.slot.isEvict = decide (a.type = .evict) := rfl

theorem EvictBuf.pushData_hasData {next : NextLevel ν} {b : EvictBuf} {m : ν} :
    (b.pushData next m).2.1.hasData = b.hasData ∧
      (b.pushData next m).2.1.requestId = b.requestId := by
  rw [pushData]
  split <;> exact ⟨rfl, rfl⟩

theorem EvictBuf.sendRequest_user {next : NextLevel ν} {b : EvictBuf} {m : ν} :
    (b.sendRequest next m).2.1.user = b.user := by
  rw [sendRequest]
  split <;> rfl

namespace Cache

variable {cfg : Config ν ι} {c c' : Cache ν ι}

/-- The queue of write-backs. -/
def evictQueue (c : Cache ν ι) : EvictQueue := ⟨c.actions.map (·.slot), c.evictBuf.user⟩

theorem evictQueue_congr (hactions : c'.actions.map (·.slot) = c.actions.map (·.slot))
    (hbuf : c'.evictBuf.user = c.evictBuf.user) : c'.evictQueue = c.evictQueue := by
  rw [evictQueue, evictQueue, hactions, hbuf]

/-! ### Parts that leave the queue -/

theorem evictQueue_of_work (h : c'.work = c.work) : c'.evictQueue = c.evictQueue :=
  congrArg (fun x => EvictQueue.mk (x.2.1.map (·.slot)) x.2.2) h

theorem evictQueue_of_control (h : c'.control = c.control) : c'.evictQueue = c.evictQueue :=
  evictQueue_of_work (congrArg Prod.snd h)

@[simp] theorem evictQueue_onMemory {f : Memory → Memory} :
    (c.onMemory f).evictQueue = c.evictQueue := rfl

/-! ### Requests -/

/-- What requests do in a cycle. Actions that have not started are added at the end, linefills with
their evictions; the times of lookups and the number of the cycle's actions stay, and without a
command also the store buffer. -/
structure Grows (c c' : Cache ν ι) : Prop where
  lookups : c'.lookups = c.lookups
  nActions : c'.nActions = c.nActions
  storeBuf : c.command = .cacheNoAccess → c'.storeBuf.length = c.storeBuf.length
  command : c.command = .cacheNoAccess → c'.command = .cacheNoAccess
  queue : ∃ new, c'.evictQueue = ⟨c.evictQueue.slots ++ new, c.evictQueue.buffer⟩ ∧ Paired new ∧
    ∀ s ∈ new, s.started = false

namespace Grows

variable {c'' : Cache ν ι}

theorem of_schedule (h : c'.schedule = c.schedule)
    (hq : ∃ new, c'.evictQueue = ⟨c.evictQueue.slots ++ new, c.evictQueue.buffer⟩ ∧ Paired new ∧
      ∀ s ∈ new, s.started = false) : Grows c c' := by
  obtain ⟨hlookups, hcounts⟩ := Prod.mk.inj h
  simp only [counts, Prod.mk.injEq] at hcounts
  exact ⟨hlookups, hcounts.1, fun _ => hcounts.2.1, fun hc => hcounts.2.2.trans hc, hq⟩

theorem of_eq (h : c'.schedule = c.schedule) (hq : c'.evictQueue = c.evictQueue) : Grows c c' :=
  of_schedule h ⟨[], by simp [hq], trivial, by simp⟩

theorem of_control (h : c'.control = c.control) : Grows c c' :=
  of_eq (schedule_of_control h) (evictQueue_of_control h)

theorem trans (h : Grows c c') (h' : Grows c' c'') : Grows c c'' := by
  obtain ⟨new, hq, hpaired, hnew⟩ := h.queue
  obtain ⟨new', hq', hpaired', hnew'⟩ := h'.queue
  refine ⟨h'.lookups.trans h.lookups, h'.nActions.trans h.nActions,
    fun hc => (h'.storeBuf (h.command hc)).trans (h.storeBuf hc),
    fun hc => h'.command (h.command hc),
    new ++ new', by simp [hq', hq], hpaired.append hpaired', fun s hs => ?_⟩
  rcases List.mem_append.mp hs with hs | hs
  · exact hnew s hs
  · exact hnew' s hs

theorem left (heq : c'.control = c.control) (h : Grows c' c'') : Grows c c'' :=
  (of_control heq).trans h

theorem right (h : Grows c c') (heq : c''.control = c'.control) : Grows c c'' :=
  h.trans (of_control heq)

end Grows

section Requests

variable {pointer : ℕ × ℕ} {r : MemoryRequest} {isNewRequest atLinefillBuf : Bool}

theorem grows_queue {new : List NextLevelAction} (hactions : c'.actions = c.actions ++ new)
    (hbuf : c'.evictBuf = c.evictBuf) (hpaired : Paired (new.map (·.slot)))
    (hnew : ∀ a ∈ new, a.started = false) :
    ∃ new, c'.evictQueue = ⟨c.evictQueue.slots ++ new, c.evictQueue.buffer⟩ ∧ Paired new ∧
      ∀ s ∈ new, s.started = false := by
  refine ⟨new.map (·.slot), ?_, hpaired, ?_⟩
  · rw [evictQueue, evictQueue, hactions, hbuf, List.map_append]
  · intro s hs
    obtain ⟨a, ha, rfl⟩ := List.mem_map.mp hs
    exact hnew a ha

theorem new_started {type : NextLevelActionType} {b : Bool} :
    (NextLevelAction.new type pointer r b).started = false := by
  cases type <;> rfl

/-- An action that is not a linefill with an eviction. -/
theorem grows_pushAction {type : NextLevelActionType} :
    Grows c (c.pushAction (.new type pointer r false)) := by
  refine .of_schedule rfl (grows_queue rfl rfl (paired_of_forall ?_) ?_)
  · intro s hs hreplaces
    obtain rfl := List.mem_singleton.mp hs
    cases type <;> cases hreplaces.2
  · intro a ha
    obtain rfl := List.mem_singleton.mp ha
    exact new_started

theorem grows_addLinefillAction : Grows c (c.addLinefillAction pointer r) := by
  rw [addLinefillAction]
  cases hevict : r.needEviction with
  | false =>
    have hset : (c.setLineHasData r.lineSet r.lineWay false).control = c.control := rfl
    exact .right (.left hset grows_pushAction) rfl
  | true =>
    have hactions : c.actions ++ [.new .linefill pointer r true] ++ [.new .evict pointer r false] =
        c.actions ++ [.new .linefill pointer r true, .new .evict pointer r false] := by simp
    refine .of_schedule rfl (grows_queue hactions rfl ?_ ?_)
    · refine ⟨fun _ => ⟨_, rfl, rfl, rfl⟩, fun hreplaces => ?_, trivial⟩
      cases hreplaces.1
    · simp [new_started]

theorem grows_processRead :
    Grows c (c.processRead cfg pointer isNewRequest atLinefillBuf r).2 := by
  rw [processRead]
  split
  · split <;> exact .of_control rfl
  · split
    · split <;> exact .of_control rfl
    · split
      · split
        · exact grows_addLinefillAction
        · exact grows_pushAction
      · exact .of_control rfl

theorem grows_writeLookup :
    Grows c (c.writeLookup cfg pointer isNewRequest atLinefillBuf r).2 := by
  rw [writeLookup]
  split
  · split <;> exact .of_control rfl
  · split
    · split <;> exact .of_control rfl
    · split
      · split
        · exact grows_addLinefillAction
        · exact .of_control rfl
      · split <;> exact .of_control rfl

theorem grows_processWrite :
    Grows c (c.processWrite cfg pointer isNewRequest atLinefillBuf r).2 := by
  have hlookup : Grows c (c.writeLookup cfg pointer isNewRequest atLinefillBuf r).2 :=
    grows_writeLookup
  rw [processWrite]
  generalize c.writeLookup cfg pointer isNewRequest atLinefillBuf r = rc at hlookup
  obtain ⟨r', c'⟩ := rc
  refine hlookup.trans ?_
  dsimp only
  split
  case isFalse => exact .of_control rfl
  case isTrue =>
    split
    · split
      · exact .of_control rfl
      · exact grows_pushAction
    · split
      · split
        · exact .of_eq rfl (evictQueue_congr (Math.map_modify_of_eq fun _ => rfl) rfl)
        · exact .of_control rfl
      · exact .of_control rfl

theorem grows_endCommand : Grows c (c.endCommand cfg) := by
  have hend : Grows c (((c.requests.head?).elim c (c.operationEnd cfg)).onMemory
      (·.removeRequest 0)) :=
    .of_control (control_removeRequest.trans control_endOperation)
  exact ⟨hend.lookups, hend.nActions, hend.storeBuf, fun _ => rfl, hend.queue⟩

theorem grows_zeroNextLevel (hcommand : c.command ≠ .cacheNoAccess) :
    Grows c (c.zeroNextLevel cfg pointer r) := by
  refine ⟨rfl, rfl, fun h => absurd h hcommand, fun h => absurd h hcommand,
    grows_queue rfl rfl (paired_of_forall ?_) ?_⟩
  · intro s hs hreplaces
    simp only [List.mem_map] at hs
    obtain ⟨a, ⟨k, -, rfl⟩, rfl⟩ := hs
    cases hreplaces.1
  · intro a ha
    obtain ⟨k, -, rfl⟩ := List.mem_map.mp ha
    rfl

theorem grows_pushEvict : Grows c (c.pushEvict pointer isNewRequest r) := by
  rw [pushEvict]
  split
  · exact grows_pushAction
  · exact .of_control rfl

theorem grows_processZero (hcommand : c.command ≠ .cacheNoAccess) :
    Grows c (c.processZero cfg pointer isNewRequest r) := by
  have hevict : Grows c (c.pushEvict pointer isNewRequest r) := grows_pushEvict
  have hpush : (c.pushEvict pointer isNewRequest r).command = c.command := by
    rw [pushEvict]
    split <;> rfl
  rw [processZero]
  refine hevict.trans ?_
  split
  · split
    · exact .left control_setCacheData grows_endCommand
    · exact .of_control rfl
  · exact (grows_zeroNextLevel (hpush ▸ hcommand)).trans grows_endCommand

theorem grows_processTouch : Grows c (c.processTouch cfg pointer isNewRequest r) := by
  have hfill : Grows c
      (if isNewRequest && r.needLinefill then c.addLinefillAction pointer r else c) := by
    split
    · exact grows_addLinefillAction
    · exact .of_control rfl
  rw [processTouch]
  generalize (if isNewRequest && r.needLinefill then c.addLinefillAction pointer r else c) = c'
    at hfill
  refine hfill.trans ?_
  split
  · exact grows_endCommand
  · exact .of_control rfl

theorem grows_processCommand : Grows c (c.processCommand cfg pointer isNewRequest r) := by
  have hevict : Grows c (c.pushEvict pointer isNewRequest r) := grows_pushEvict
  rw [processCommand]
  refine hevict.trans ?_
  split
  · refine .left ?_ grows_endCommand
    split <;> rfl
  · exact .of_control rfl

theorem grows_process {i : ℕ} : Grows c (c.process cfg i isNewRequest atLinefillBuf r) := by
  rw [process]
  dsimp only
  split
  · exact grows_processRead.right rfl
  · split
    · exact grows_processWrite.right rfl
    · rename_i hwrite
      have hset : (c.setRequest i r).control = c.control := rfl
      refine .left hset ?_
      split
      · rename_i htype
        -- without a command, this request would be a write
        refine grows_processZero fun hno => hwrite ?_
        simp [MemoryRequest.isWrite, htype, hasCommand, show c.command = .cacheNoAccess from hno]
      · split
        · exact grows_processTouch
        · exact grows_processCommand

end Requests

theorem requestLoop_grows {clearLinefill : Bool} {fuel i : ℕ} :
    Grows c (requestLoop cfg clearLinefill fuel i c) := by
  induction fuel generalizing i c with
  | zero => exact .of_control rfl
  | succ fuel ih =>
    rw [requestLoop]
    split
    · exact .of_control rfl
    · split
      · exact ih
      · split
        · exact .trans (.left control_hitLinefill grows_process) ih
        · split
          · exact .left (control_hitLinefill.trans control_operationBegin) grows_process
          · exact .of_control rfl

/-- The lines of the evictions that are in the queue behind the first `n` actions. -/
def queuedFrom (c : Cache ν ι) (n : ℕ) : List EvictEvent :=
  (((c.actions.drop n).map (·.slot)).filter (·.isEvict)).map fun s => .queued s.line

theorem Grows.moves (h : Grows c c') :
    Moves c.evictQueue (c'.queuedFrom c.actions.length) c'.evictQueue := by
  obtain ⟨new, hq, hpaired, hnew⟩ := h.queue
  have hnews : (c'.actions.drop c.actions.length).map (·.slot) = new := by
    have hslots : c'.actions.map (·.slot) = c.actions.map (·.slot) ++ new :=
      congrArg EvictQueue.slots hq
    rw [List.map_drop, hslots, List.drop_left' (List.length_map ..)]
  rw [queuedFrom, hnews, hq]
  exact Moves.grow hpaired hnew

/-! ### The data phase -/

/-- The lines that are written in the data phase. -/
def dataEvents (cfg : Config ν ι) : ℕ → Bool → Cache ν ι → List EvictEvent
  | 0, _, _ => []
  | fuel + 1, clearLinefill, c =>
    match c.actions with
    | [] => []
    | a :: _ =>
      match c.dataAction cfg clearLinefill a with
      | (true, clearLinefill, c') =>
        (if a.type = .evict then [.written a.slot.line (c.evictBuf.pushData cfg.next c.memory).2.1]
          else []) ++
        dataEvents cfg fuel clearLinefill { c' with actions := c'.actions.tail }
      | (false, _, _) => []

section DataPhase

variable {clearLinefill : Bool} {a : NextLevelAction} {rest : List NextLevelAction}

/-- Only evictions change the queue in their data phase. -/
theorem evictQueue_dataAction (htype : a.type ≠ .evict) :
    (c.dataAction cfg clearLinefill a).2.2.evictQueue = c.evictQueue := by
  rw [dataAction]
  cases h : a.type with
  | linefill =>
    dsimp only
    split
    · split
      · split
        · rw [evictQueue_of_control control_writeBackLinefill]
          exact evictQueue_congr (Math.map_modify_of_eq fun _ => rfl) rfl
        · exact evictQueue_congr (Math.map_modify_of_eq fun _ => rfl) rfl
      · rfl
    · rfl
  | evict => exact absurd h htype
  | readNext =>
    dsimp only
    split
    · exact evictQueue_of_control (@control_modifyAt _ _ c _ _)
    · rfl
  | storeNext =>
    dsimp only
    split <;> rfl

/-- An eviction that has started has the buffer. -/
theorem buffer_of_linked (hactions : c.actions = a :: rest) (htype : a.type = .evict)
    (hstarted : a.started = true) (hq : c.evictQueue.Linked) :
    c.evictBuf.hasData = true ∧ c.evictBuf.requestId = a.id := by
  have hevict : a.slot.isEvict = true := by simp [htype]
  have hevicting := hq.evicting
  rw [EvictQueue.evicts, evictQueue, hactions, List.map_cons, List.filter_cons, if_pos hevict]
    at hevicting
  have hbuffer : c.evictBuf.user = some a.id := by
    simpa [hstarted] using hevicting.1
  rw [EvictBuf.user] at hbuffer
  split at hbuffer
  case isTrue h => exact ⟨h, Option.some.inj hbuffer⟩
  case isFalse => cases hbuffer

/-- The data phase of an eviction. It is done when the last entry has been sent. -/
theorem dataAction_evict (hactions : c.actions = a :: rest) (htype : a.type = .evict)
    (hq : c.evictQueue.Linked) {done b : Bool}
    (h : c.dataAction cfg clearLinefill a = (done, b, c')) :
    c'.actions = c.actions ∧
      if done then
        (c.evictBuf.pushData cfg.next c.memory).2.1.evicted = true ∧ c'.evictBuf.user = none
      else c'.evictBuf.user = c.evictBuf.user := by
  obtain ⟨hpush, hid⟩ := @EvictBuf.pushData_hasData _ cfg.next c.evictBuf c.memory
  rw [dataAction, htype] at h
  cases hstarted : a.started with
  | false =>
    obtain ⟨rfl, -, rfl⟩ := by simpa [hstarted] using h
    exact ⟨rfl, rfl⟩
  | true =>
    have hbuf := (buffer_of_linked hactions htype hstarted hq).1
    rw [hbuf] at hpush
    cases hevicted : (c.evictBuf.pushData cfg.next c.memory).2.1.evicted with
    | true =>
      simp only [hstarted, hevicted, ↓reduceIte] at h
      cases h
      exact ⟨rfl, rfl, rfl⟩
    | false =>
      simp only [hstarted, hevicted, ↓reduceIte, Bool.false_eq_true, EvictBuf.empty, hpush,
        Bool.not_true, Bool.and_false] at h
      cases h
      refine ⟨rfl, ?_⟩
      change EvictBuf.user _ = _
      rw [EvictBuf.user, EvictBuf.user, hpush, hbuf, hid]

theorem dataAction_pending {b : Bool} (hactions : c.actions = a :: rest)
    (h : c.dataAction cfg clearLinefill a = (false, b, c')) :
    Moves c.evictQueue [] c'.evictQueue := by
  by_cases htype : a.type = .evict
  case pos =>
    intro hq
    obtain ⟨hactions', hbuf⟩ := dataAction_evict hactions htype hq h
    rw [evictQueue_congr (congrArg _ hactions') hbuf]
    exact Moves.refl _ hq
  case neg =>
    have hq : (c.dataAction cfg clearLinefill a).2.2.evictQueue = c.evictQueue :=
      evictQueue_dataAction htype
    rw [h] at hq
    exact hq ▸ Moves.refl c.evictQueue

/-- An action that is done leaves the queue. -/
theorem dataAction_done {b : Bool} (hactions : c.actions = a :: rest)
    (h : c.dataAction cfg clearLinefill a = (true, b, c')) :
    Moves c.evictQueue
      (if a.type = .evict then [.written a.slot.line (c.evictBuf.pushData cfg.next c.memory).2.1]
        else [])
      ({ c' with actions := c'.actions.tail } : Cache ν ι).evictQueue := by
  have hslots : c.evictQueue.slots = a.slot :: rest.map (·.slot) := by
    rw [evictQueue, hactions, List.map_cons]
  split
  case isTrue htype =>
    intro hq
    obtain ⟨hactions', hevicted, hbuf⟩ := dataAction_evict hactions htype hq h
    have hstarted : a.started = true := by
      rw [dataAction, htype] at h
      simp_all
    have hevict : a.slot.isEvict = true := by simp [htype]
    rw [evictQueue, hactions', hactions, hbuf]
    refine Moves.write hslots hevict (fun _ => ⟨?_, hevicted⟩) hq
    rw [EvictBuf.pushData_hasData.2]
    exact (buffer_of_linked hactions htype hstarted hq).2
  case isFalse htype =>
    have hq : (c.dataAction cfg clearLinefill a).2.2.evictQueue = c.evictQueue :=
      evictQueue_dataAction htype
    rw [h] at hq
    have hevict : a.slot.isEvict = false := by simp [htype]
    have htail : c'.actions.tail.map (·.slot) = rest.map (·.slot) := by
      have hslots' : c'.actions.map (·.slot) = a.slot :: rest.map (·.slot) :=
        (congrArg EvictQueue.slots hq).trans hslots
      rw [List.map_tail, hslots', List.tail_cons]
    have hbuf : c'.evictBuf.user = c.evictQueue.buffer := congrArg EvictQueue.buffer hq
    have hpopped : ({ c' with actions := c'.actions.tail } : Cache ν ι).evictQueue =
        ⟨rest.map (·.slot), c.evictQueue.buffer⟩ := congrArg₂ EvictQueue.mk htail hbuf
    rw [hpopped]
    exact Moves.pop hslots hevict

theorem dataPhase_moves {fuel : ℕ} :
    Moves c.evictQueue (dataEvents cfg fuel clearLinefill c)
      (dataPhase cfg fuel clearLinefill c).2.evictQueue := by
  induction fuel generalizing clearLinefill c with
  | zero => exact Moves.refl _
  | succ fuel ih =>
    rw [dataPhase, dataEvents]
    cases hactions : c.actions with
    | nil => exact Moves.refl _
    | cons a rest =>
      dsimp only
      rcases hdata : c.dataAction cfg clearLinefill a with ⟨_ | _, b, c'⟩
      · exact dataAction_pending hactions hdata
      · exact (dataAction_done hactions hdata).trans ih

end DataPhase

theorem evictQueue_beginCycle : (c.beginCycle cfg).evictQueue = c.evictQueue :=
  (evictQueue_of_work work_lookupTimes).trans evictQueue_onMemory

/-- The cache after the data phase of a new cycle. -/
def dataDone (cfg : Config ν ι) (c : Cache ν ι) : Cache ν ι :=
  (dataPhase cfg (c.beginCycle cfg).actions.length false (c.beginCycle cfg)).2

/-- After the data phase, actions are only added. -/
theorem preCycle_grows :
    Grows { c.dataDone cfg with nActions := BitVec.ofNat 32 (c.dataDone cfg).actions.length }
      (c.preCycle cfg) := by
  rw [preCycle, dataDone]
  generalize dataPhase cfg (c.beginCycle cfg).actions.length false (c.beginCycle cfg) = d
  obtain ⟨clearLinefill, c₁⟩ := d
  refine .right ?_ control_dropLoop
  generalize hloop : requestLoop cfg clearLinefill _ 0 _ = c₂
  have hgrows : Grows { c₁ with nActions := BitVec.ofNat 32 c₁.actions.length } c₂ := by
    rw [← hloop]
    refine .left ?_ requestLoop_grows
    rfl
  split <;> exact hgrows.right rfl

def preCycleEvents (cfg : Config ν ι) (c : Cache ν ι) : List EvictEvent :=
  let c₀ := c.beginCycle cfg
  let c₁ := (dataPhase cfg c₀.actions.length false c₀).2
  dataEvents cfg c₀.actions.length false c₀ ++ (c.preCycle cfg).queuedFrom c₁.actions.length

theorem preCycle_moves :
    Moves c.evictQueue (c.preCycleEvents cfg) (c.preCycle cfg).evictQueue := by
  rw [← @evictQueue_beginCycle _ _ cfg c]
  exact dataPhase_moves.trans preCycle_grows.moves

/-! ### The end of a cycle -/

/-- All evictions before index `i` have started. -/
def StartedBefore (c : Cache ν ι) (i : ℕ) : Prop :=
  ∀ s ∈ c.evictQueue.slots.take i, s.isEvict = true → s.started = true

/-- The request phase of the action at index `i` may start it. An eviction takes the buffer. -/
def Starts (c : Cache ν ι) (i : ℕ) (c' : Cache ν ι) : Prop :=
  c'.evictQueue = c.evictQueue ∨ ∃ s, c.evictQueue.slots[i]? = some s ∧
    (s.isEvict = true → c.evictQueue.buffer = none) ∧
    c'.evictQueue = ⟨c.evictQueue.slots.modify i Slot.start,
      if s.isEvict then some s.id else c.evictQueue.buffer⟩

section PostCycle

variable {i storeBufId : ℕ} {a : NextLevelAction} {s : Slot}

theorem Starts.left {c'' : Cache ν ι} (heq : c'.evictQueue = c.evictQueue) (h : Starts c' i c'') :
    Starts c i c'' := by
  rw [Starts, heq] at h
  exact h

theorem Starts.right {c'' : Cache ν ι} (h : Starts c i c') (heq : c''.evictQueue = c'.evictQueue) :
    Starts c i c'' := by
  rw [Starts, ← heq] at h
  exact h

theorem Starts.moves (hbefore : c.StartedBefore i) (h : Starts c i c') :
    Moves c.evictQueue [] c'.evictQueue := by
  obtain heq | ⟨s, hs, hfree, heq⟩ := h
  · exact heq ▸ Moves.refl c.evictQueue
  · rw [heq]
    cases hevict : s.isEvict with
    | false => exact Moves.start hs hevict
    | true => exact Moves.startEvict hs hevict (hfree hevict) hbefore

/-- The slot at index `i` afterwards. -/
theorem Starts.slot (h : Starts c i c') (hs : c.evictQueue.slots[i]? = some s) :
    c'.evictQueue.slots[i]? = some s ∨ c'.evictQueue.slots[i]? = some s.start := by
  obtain heq | ⟨s', hs', -, heq⟩ := h
  · exact .inl (heq ▸ hs)
  · rw [heq]
    exact .inr (by simp [hs])

theorem Starts.startedBefore (hbefore : c.StartedBefore i) (h : Starts c i c')
    (hi : ∀ s, c'.evictQueue.slots[i]? = some s → s.isEvict = true → s.started = true) :
    c'.StartedBefore (i + 1) := by
  have htake : c'.evictQueue.slots.take i = c.evictQueue.slots.take i := by
    obtain heq | ⟨s', hs', -, heq⟩ := h
    · rw [heq]
    · obtain ⟨pre, post, hslots, hmodify, rfl⟩ := Math.modify_split Slot.start hs'
      rw [heq, hmodify, hslots, List.take_left, List.take_left]
  intro s hs
  rw [List.take_add_one, htake] at hs
  rcases List.mem_append.mp hs with hs | hs
  · exact hbefore s hs
  · exact hi s (Option.mem_toList.mp hs)

theorem slots_getElem? (ha : c.actions[i]? = some a) :
    c.evictQueue.slots[i]? = some a.slot := by
  rw [evictQueue, List.getElem?_map, ha, Option.map_some]

/-- An action other than an eviction starts. -/
theorem starts_modifyAction {f : NextLevelAction → NextLevelAction}
    (hf : ∀ a, (f a).slot = a.slot.start) (hs : c.evictQueue.slots[i]? = some s)
    (hne : s.isEvict = false) : Starts c i (c.modifyAction i f) := by
  refine .inr ⟨s, hs, by simp [hne], ?_⟩
  rw [hne]
  exact congrArg₂ EvictQueue.mk (Math.map_modify fun a _ => hf a) rfl

theorem starts_startLinefill (hs : c.evictQueue.slots[i]? = some s) (hne : s.isEvict = false) :
    Starts c i (c.startLinefill cfg i a) := by
  rw [startLinefill]
  generalize hstart : (if c.linefill.lazyWriteback && !c.linefill.empty && c.linefill.loaded then _
    else c : Cache ν ι) = c'
  have hwrite : c'.evictQueue = c.evictQueue := by
    have hq : (c.writeBackLinefill cfg).2.evictQueue = c.evictQueue :=
      evictQueue_of_control control_writeBackLinefill
    rw [← hstart]
    split
    · rcases h : c.writeBackLinefill cfg with ⟨_ | _, c'⟩ <;> rw [h] at hq <;> exact hq
    · rfl
  refine .left hwrite ?_
  rw [← hwrite] at hs
  split
  · exact .right (starts_modifyAction (fun _ => rfl) hs hne) rfl
  · split
    · exact .inl rfl
    · exact .inl rfl

theorem starts_postLinefill (ha : c.actions[i]? = some a) (htype : a.type = .linefill) :
    Starts c i (c.postLinefill cfg i a).2 := by
  have hstart : Starts c i (if a.started then c else c.startLinefill cfg i a) := by
    split
    · exact .inl rfl
    · exact starts_startLinefill (slots_getElem? ha) (by
        simp [htype])
  rw [postLinefill]
  generalize (if a.started then c else c.startLinefill cfg i a) = c' at hstart
  refine hstart.right ?_
  dsimp only
  split
  · rw [evictQueue_of_work work_lockLookups, evictQueue_of_control control_sendLinefill]
  · exact evictQueue_of_control control_sendLinefill

theorem starts_postRead (ha : c.actions[i]? = some a) (htype : a.type = .readNext) :
    Starts c i (c.postRead cfg i a).2 := by
  rw [postRead]
  split
  · split
    · exact .right (starts_modifyAction (fun _ => rfl) (slots_getElem? ha) (by
        simp [htype])) rfl
    · exact .inl rfl
  · exact .inl rfl

theorem starts_postStore (ha : c.actions[i]? = some a) (htype : a.type = .storeNext) :
    Starts c i (c.postStore cfg storeBufId i a).2 := by
  rw [postStore]
  split
  · split
    · exact .right (starts_modifyAction (fun _ => rfl) (slots_getElem? ha) (by
        simp [htype])) rfl
    · exact .inl rfl
  · exact .inl rfl

theorem starts_startEvict (ha : c.actions[i]? = some a) (htype : a.type = .evict) :
    Starts c i (c.startEvict cfg i a) := by
  rw [startEvict]
  dsimp only
  split
  case isFalse => exact .inl rfl
  case isTrue hempty =>
    have hevict : a.slot.isEvict = true := by simp [htype]
    refine .inr ⟨a.slot, slots_getElem? ha, fun _ => ?_, ?_⟩
    · have hdata : c.evictBuf.hasData = false := by simpa [EvictBuf.empty] using hempty
      rw [evictQueue, EvictBuf.user, hdata]
      rfl
    · rw [if_pos hevict]
      exact congrArg₂ EvictQueue.mk (Math.map_modify fun _ _ => rfl) rfl

theorem startedAt_eq : c.startedAt i = (c.evictQueue.slots[i]?).any (·.started) := by
  rw [startedAt, evictQueue, List.getElem?_map, Option.any_map]
  rfl

/-- The actions behind an eviction have to wait until it has started. -/
theorem starts_postEvict (ha : c.actions[i]? = some a) (htype : a.type = .evict)
    {continueAct : Bool} (h : c.postEvict cfg i a = (continueAct, c')) :
    Starts c i c' ∧
      (continueAct = true → ∀ s, c'.evictQueue.slots[i]? = some s → s.started = true) := by
  have hstarts : Starts c i (if a.started then c else c.startEvict cfg i a) := by
    split
    · exact .inl rfl
    · exact starts_startEvict ha htype
  rw [postEvict] at h
  generalize (if a.started then c else c.startEvict cfg i a) = c₁ at h hstarts
  dsimp only at h
  split at h
  case isFalse =>
    obtain ⟨rfl, rfl⟩ := Prod.mk.inj h
    exact ⟨hstarts, fun h => absurd h Bool.false_ne_true⟩
  case isTrue hat =>
    obtain ⟨-, hc'⟩ := Prod.mk.inj h
    have hq : c'.evictQueue = c₁.evictQueue := by
      rw [← hc']
      exact evictQueue_congr rfl EvictBuf.sendRequest_user
    refine ⟨hstarts.right hq, fun _ s hs => ?_⟩
    rw [startedAt_eq, ← hq, hs] at hat
    exact hat

theorem starts_postAction (ha : c.actions[i]? = some a) :
    Starts c i (c.postAction cfg storeBufId i a).2 := by
  rw [postAction]
  cases htype : a.type with
  | linefill => exact starts_postLinefill ha htype
  | evict => exact (starts_postEvict ha htype rfl).1
  | readNext => exact starts_postRead ha htype
  | storeNext => exact starts_postStore ha htype

theorem postAction_moves (hbefore : c.StartedBefore i) (ha : c.actions[i]? = some a)
    {continueAct : Bool} (h : c.postAction cfg storeBufId i a = (continueAct, c')) :
    Moves c.evictQueue [] c'.evictQueue ∧ (continueAct = true → c'.StartedBefore (i + 1)) := by
  have hs : c.evictQueue.slots[i]? = some a.slot := slots_getElem? ha
  have hstarts : Starts c i (c.postAction cfg storeBufId i a).2 := starts_postAction ha
  rw [h] at hstarts
  refine ⟨hstarts.moves hbefore, fun hc => hstarts.startedBefore hbefore fun s hs' hevict => ?_⟩
  have htype : a.type = .evict := by
    have hsame : s.isEvict = a.slot.isEvict := by
      rcases hstarts.slot hs with h | h <;> rw [h] at hs' <;> cases hs' <;> rfl
    rw [hsame] at hevict
    exact of_decide_eq_true hevict
  rw [postAction, htype] at h
  exact (starts_postEvict ha htype h).2 hc s hs'

theorem postLoop_moves {fuel : ℕ} (hbefore : c.StartedBefore i) :
    Moves c.evictQueue [] (postLoop cfg fuel storeBufId i c).evictQueue := by
  induction fuel generalizing storeBufId i c with
  | zero => exact Moves.refl _
  | succ fuel ih =>
    rw [postLoop]
    cases ha : c.actions[i]? with
    | none => exact Moves.refl _
    | some a =>
      dsimp only
      rcases hpost : c.postAction cfg storeBufId i a with ⟨_ | _, c'⟩
      · exact (postAction_moves hbefore ha hpost).1
      · obtain ⟨hmoves, hnext⟩ := postAction_moves hbefore ha hpost
        exact hmoves.trans' (ih (hnext rfl))

theorem postCycle_moves : Moves c.evictQueue [] (c.postCycle cfg).evictQueue :=
  postLoop_moves (by simp [StartedBefore])

end PostCycle

/-! ### Clients -/

variable {id : ReqId}

/-- A write that does not use the store buffer takes its own store from the queue. -/
theorem writeStore_moves {r : MemoryRequest} {data : ℕ → Byte}
    (hstore : r.useStoreBuf = false → r.action = .cacheNone →
      ∃ s l, c.evictQueue.slots = s :: l ∧ s.isEvict = false) :
    Moves c.evictQueue [] (c.writeStore cfg r data).evictQueue := by
  rw [writeStore]
  split
  case isTrue =>
    have hslots : ((c.actions.findIdx? (·.id = r.id)).elim c.actions fun k =>
        c.actions.modify k ({ · with request := none })).map (·.slot) =
        c.actions.map (·.slot) := by
      cases c.actions.findIdx? (·.id = r.id) with
      | none => rfl
      | some k => exact Math.map_modify_of_eq fun _ => rfl
    exact .of_evicts_eq (fun hq => by rw [evictQueue, hslots]; exact hq.paired)
      (by rw [evictQueue, hslots]; rfl) rfl
  case isFalse hbuf =>
    split
    case isTrue haction =>
      obtain ⟨s, l, hslots, hs⟩ := hstore (Bool.eq_false_iff.mpr hbuf) haction
      have htail : c.actions.tail.map (·.slot) = l := by
        rw [List.map_tail]
        exact congrArg List.tail hslots
      rw [evictQueue, evictQueue, htail]
      exact Moves.pop hslots hs
    case isFalse => exact Moves.refl _

theorem requests_consumeDataBandwidth : (c.onMemory fun m =>
    m.modifyPort 0 (·.consumeDataBandwidth m.currTime)).requests = c.requests := by
  rw [requests, requests, onMemory, Memory.modifyPort, List.getElem?_modify]
  cases c.ports[0]? with
  | none => rfl
  | some p => exact p.consumeDataBandwidth_requests

theorem write_moves {iid : Option ℕ} {data : ℕ → Byte} (h : c.writeInquire cfg iid id = true) :
    Moves c.evictQueue [] (c.write cfg data).evictQueue := by
  rw [write, requests_consumeDataBandwidth]
  cases hr : c.requests.head? with
  | none => exact Moves.refl _
  | some r =>
    have hstore : r.useStoreBuf = false → r.action = .cacheNone →
        ∃ s l, c.evictQueue.slots = s :: l ∧ s.isEvict = false := by
      intro hbuf haction
      rw [writeInquire, hr] at h
      cases hactions : c.actions with
      | nil => simp [hbuf, haction, hactions] at h
      | cons a rest =>
        have htype : a.type = .storeNext := by
          simp [hbuf, haction, hactions] at h
          exact h.2.1.2
        exact ⟨a.slot, rest.map (·.slot), by rw [evictQueue, hactions]; rfl, by simp [htype]⟩
    have hq : ((c.onMemory fun m => m.modifyPort 0 (·.consumeDataBandwidth m.currTime)).writeData
        cfg r data).evictQueue = c.evictQueue :=
      evictQueue_of_control (control_writeData.trans (control_onMemory rfl))
    rw [← hq] at hstore ⊢
    exact writeStore_moves hstore

/-! ### Cancelling -/

/-- A read or a store of the request. -/
def cancelled (id : ReqId) (s : Slot) : Bool :=
  s.id = id && (s.type = .readNext || s.type = .storeNext)

theorem cancelled_iff {s : Slot} :
    cancelled id s = true ↔ s.id = id ∧ (s.type = .readNext ∨ s.type = .storeNext) := by
  simp [cancelled]

theorem cancelNextLevel_eq {next : NextLevel ν} {saved count : ℕ} {actions : List NextLevelAction}
    {m : ν} {n : BitVec 32} :
    (cancelNextLevel next id saved count actions m n).1 = actions.filter (!cancelled id ·.slot) ∧
      (cancelNextLevel next id saved count actions m n).2.2 = n - BitVec.ofNat 32
        (Math.countdown (!cancelled id ·) saved count (actions.map (·.slot))) := by
  induction actions generalizing count m n with
  | nil => simp [cancelNextLevel, Math.countdown]
  | cons a rest ih =>
    rw [cancelNextLevel, List.filter_cons, List.map_cons, Math.countdown]
    by_cases h : a.id = id ∧ (a.type = .readNext ∨ a.type = .storeNext)
    · -- the next action takes the place of this one, so the index stays
      have hc : cancelled id a.slot = true := cancelled_iff.mpr h
      rw [if_pos h, hc, Bool.not_true, if_neg Bool.false_ne_true, if_neg Bool.false_ne_true]
      refine ⟨ih.1, ih.2.trans ?_⟩
      split <;> simp [BitVec.ofNat_add, BitVec.sub_sub, BitVec.add_comm]
    · have hc : cancelled id a.slot = false := Bool.eq_false_iff.mpr (mt cancelled_iff.mp h)
      rw [if_neg h, hc, Bool.not_false, if_pos rfl, if_pos rfl]
      exact ⟨congrArg (a :: ·) ih.1, ih.2⟩

/-- Linefills and stores stay without their request. -/
def stays (find : ReqId → Option (ℕ × ℕ)) (s : Slot) : Bool :=
  s.type = .linefill || s.type = .storeNext || (find s.id).isSome

theorem stays_eq_false_iff {find : ReqId → Option (ℕ × ℕ)} {s : Slot} :
    stays find s = false ↔ s.type ≠ .linefill ∧ s.type ≠ .storeNext ∧ find s.id = none := by
  simp [stays, and_assoc]

theorem fixActions_eq {find : ReqId → Option (ℕ × ℕ)} {saved count : ℕ}
    {actions : List NextLevelAction} {n : BitVec 32} :
    (fixActions find saved count actions n).1 =
        (actions.filter (stays find ·.slot)).map (fun a => { a with request := find a.id }) ∧
      (fixActions find saved count actions n).2 =
        n - BitVec.ofNat 32 (Math.countdown (stays find) saved count (actions.map (·.slot))) := by
  induction actions generalizing count n with
  | nil => simp [fixActions, Math.countdown]
  | cons a rest ih =>
    rw [fixActions, List.filter_cons, List.map_cons, Math.countdown]
    by_cases h : a.type ≠ .linefill ∧ a.type ≠ .storeNext ∧ find a.id = none
    · have hc : stays find a.slot = false := stays_eq_false_iff.mpr h
      rw [if_pos h, hc, if_neg Bool.false_ne_true, if_neg Bool.false_ne_true]
      refine ⟨ih.1, ih.2.trans ?_⟩
      split <;> simp [BitVec.ofNat_add, BitVec.sub_sub, BitVec.add_comm]
    · have hc : stays find a.slot = true := Bool.not_eq_false _ ▸ mt stays_eq_false_iff.mp h
      rw [if_neg h, hc, if_pos rfl, if_pos rfl]
      exact ⟨congrArg (_ :: ·) ih.1, ih.2⟩

/-- The requests of all evictions outlive a cancel. -/
def cancelKeeps (c : Cache ν ι) (portId : ℕ) (id : ReqId) (deep : Bool) : Bool :=
  !deep || ((c.ports[portId]?).bind (·.findRequestIdx id)).all fun index =>
    c.evictQueue.evicts.all fun s =>
      ((c.ports[portId]?).bind fun p => (p.removeRequest index).findRequest s.id).isSome

theorem evictQueue_cancelNextLevelRequest :
    (c.cancelNextLevelRequest cfg id).evictQueue =
      ⟨c.evictQueue.slots.filter (!cancelled id ·), c.evictQueue.buffer⟩ := by
  refine congrArg₂ EvictQueue.mk ?_ rfl
  refine (congrArg (List.map _) cancelNextLevel_eq.1).trans ?_
  rw [evictQueue, List.filter_map]
  rfl

theorem evictQueue_postCancelRequest {portId : ℕ} :
    (c.postCancelRequest portId).evictQueue =
      ⟨c.evictQueue.slots.filter (stays (c.findPointer portId) ·), c.evictQueue.buffer⟩ := by
  refine congrArg₂ EvictQueue.mk ?_ rfl
  refine (congrArg (List.map _) fixActions_eq.1).trans ?_
  rw [evictQueue, List.filter_map, List.map_map]
  rfl

theorem cancelled_eq_false {s : Slot} (hs : s.isEvict = true) : cancelled id s = false := by
  have htype : s.type = .evict := of_decide_eq_true hs
  simp [cancelled, htype]

theorem cancelNextLevelRequest_moves :
    Moves c.evictQueue [] (c.cancelNextLevelRequest cfg id).evictQueue := by
  rw [evictQueue_cancelNextLevelRequest]
  refine Moves.forget fun s _ hs => ?_
  rw [cancelled_eq_false hs]
  rfl

/-- A cancel that marks its request. -/
theorem evictQueue_mark {portId : ℕ} :
    (c.cancel cfg portId id false).evictQueue = c.evictQueue ∨
      (c.cancel cfg portId id false).evictQueue = (c.cancelNextLevelRequest cfg id).evictQueue := by
  rw [cancel]
  split
  · exact .inl rfl
  · simp only [Bool.false_or, Bool.false_eq_true, ↓reduceIte, evictQueue_onMemory]
    split
    · exact .inr rfl
    · exact .inl rfl

section Deep

variable {portId : ℕ} {id : ReqId} {index : ℕ}

/-- What stays when the request with this index is removed. -/
def keptBy (c : Cache ν ι) (portId : ℕ) (id : ReqId) (index : ℕ) (s : Slot) : Bool :=
  stays (fun id => ((c.ports[portId]?).bind fun p =>
    (p.removeRequest index).findRequest id).map (portId, ·)) s
    && !cancelled id s

theorem evictQueue_cancel (hindex : (c.ports[portId]?).bind (·.findRequestIdx id) = some index) :
    (c.cancel cfg portId id true).evictQueue =
      ⟨c.evictQueue.slots.filter (c.keptBy portId id index), c.evictQueue.buffer⟩ := by
  have hfind : ((c.cancelNextLevelRequest cfg id).onMemory
      (·.modifyPort portId (·.removeRequest index))).findPointer portId = fun id =>
        ((c.ports[portId]?).bind fun p =>
          (p.removeRequest index).findRequest id).map (portId, ·) := by
    funext id
    rw [findPointer, onMemory, Memory.modifyPort, List.getElem?_modify]
    simp only [if_true]
    change (((c.ports[portId]?).map _).bind _).map _ = _
    cases c.ports[portId]? <;> rfl
  rw [cancel, hindex]
  simp only [Bool.true_or, ↓reduceIte, evictQueue_onMemory, evictQueue_postCancelRequest,
    evictQueue_cancelNextLevelRequest, List.filter_filter, hfind]
  rfl

theorem keptBy_evict {s : Slot} (hs : s.isEvict = true) :
    c.keptBy portId id index s =
      ((c.ports[portId]?).bind fun p => (p.removeRequest index).findRequest s.id).isSome := by
  have htype : s.type = .evict := of_decide_eq_true hs
  simp only [keptBy, stays, htype, cancelled_eq_false hs, Option.isSome_map, reduceCtorEq,
    decide_false, Bool.false_or, Bool.not_false, Bool.and_true]

/-- The cancels that keep all evictions. -/
theorem cancel_lines_iff {deep : Bool} :
    (c.cancel cfg portId id deep).evictQueue.lines = c.evictQueue.lines ↔
      c.cancelKeeps portId id deep = true := by
  cases deep with
  | false =>
    refine iff_of_true ?_ rfl
    rcases @evictQueue_mark _ _ cfg c id portId with h | h
    · rw [h]
    · rw [h, evictQueue_cancelNextLevelRequest, EvictQueue.lines_filter_iff]
      intro s hs
      rw [cancelled_eq_false (List.mem_filter.mp hs).2]
      rfl
  | true =>
    cases hindex : (c.ports[portId]?).bind (·.findRequestIdx id) with
    | none => simp [cancel, cancelKeeps, hindex]
    | some index =>
      rw [evictQueue_cancel hindex, EvictQueue.lines_filter_iff, cancelKeeps, hindex]
      simp only [Bool.not_true, Bool.false_or, Option.all_some, List.all_eq_true]
      refine forall₂_congr fun s hs => ?_
      rw [keptBy_evict (List.mem_filter.mp hs).2]

theorem cancel_moves {deep : Bool} (h : c.cancelKeeps portId id deep = true) :
    Moves c.evictQueue [] (c.cancel cfg portId id deep).evictQueue := by
  cases deep with
  | false =>
    rcases @evictQueue_mark _ _ cfg c id portId with h | h
    · exact h ▸ Moves.refl c.evictQueue
    · exact h ▸ cancelNextLevelRequest_moves
  | true =>
    cases hindex : (c.ports[portId]?).bind (·.findRequestIdx id) with
    | none =>
      rw [cancel, hindex]
      exact Moves.refl _
    | some index =>
      rw [evictQueue_cancel hindex]
      refine Moves.forget fun s hs hevict => ?_
      rw [cancelKeeps, hindex] at h
      rw [keptBy_evict hevict]
      exact List.all_eq_true.mp h s (List.mem_filter.mpr ⟨hs, hevict⟩)

end Deep

/-! ### Runs -/

/-- The lines that an operation queues and writes. -/
def evictEvents (cfg : Config ν ι) (c : Cache ν ι) : CacheOp → List EvictEvent
  | .preCycle time => preCycleEvents cfg { c with currTime := time }
  | _ => []

def step (cfg : Config ν ι) (c : Cache ν ι) (op : CacheOp) : List EvictEvent × Cache ν ι :=
  (c.evictEvents cfg op, c.exec cfg op)

/-- The requests of all evictions outlive the operation, if it is a cancel. -/
def keeps (c : Cache ν ι) : CacheOp → Bool
  | .cancel portId id deep => c.cancelKeeps portId id deep
  | _ => true

theorem exec_moves {op : CacheOp} (h : c.keeps op = true) :
    Moves c.evictQueue (c.evictEvents cfg op) (c.exec cfg op).evictQueue := by
  cases op with
  | send portId iid request =>
    rw [exec]
    split <;> exact Moves.refl c.evictQueue
  | read iid id =>
    rw [exec]
    split
    · rw [evictQueue_of_control control_read]
      exact Moves.refl c.evictQueue
    · exact Moves.refl c.evictQueue
  | write iid id data =>
    rw [exec]
    split
    case isTrue h => exact write_moves h
    case isFalse => exact Moves.refl c.evictQueue
  | command request lineSet lineWay =>
    rw [exec]
    split <;> exact Moves.refl c.evictQueue
  | cancel portId id deep => exact cancel_moves h
  | preCycle time => exact @preCycle_moves _ _ cfg { c with currTime := time }
  | postCycle => exact postCycle_moves

/-- The events of a run, from one queue to the other. -/
theorem runs_moves {ops : List CacheOp}
    (hok : Math.Along (step cfg) (fun c op => c.keeps op = true) c ops) :
    Moves c.evictQueue (Math.runs (step cfg) c ops).1.flatten
      (Math.runs (step cfg) c ops).2.evictQueue := by
  refine Math.runs_chain (R := fun c es c' => Moves c.evictQueue es.flatten c'.evictQueue)
    (fun c => Moves.refl _) (fun c o c' os c'' h h' => ?_) (fun c op h => ?_) hok
  · rw [List.flatten_cons]
    simpa using h.trans h'
  · rw [List.flatten_singleton]
    exact exec_moves h

end Cache

variable {cfg : Config ν ι}

/-- As long as the requests of all evictions outlive the cancels, every linefill has its eviction
behind it and every line that was queued is written or still queued. A further cancel loses a line
exactly if the request of an eviction does not outlive it. -/
theorem writebacks_kept {c : Cache ν ι} (hactions : c.actions = [])
    (hempty : c.evictBuf.empty = true) {ops : List CacheOp}
    (hok : Math.Along (Cache.step cfg) (fun c op => c.keeps op = true) c ops) :
    let (es, c') := Math.runs (Cache.step cfg) c ops
    Paired c'.evictQueue.slots ∧ (∀ e ∈ es.flatten, e.Complete) ∧
      EvictEvent.queuedLines es.flatten =
        EvictEvent.writtenLines es.flatten ++ c'.evictQueue.lines ∧
      ∀ portId id deep, (c'.cancel cfg portId id deep).evictQueue.lines = c'.evictQueue.lines ↔
        c'.cancelKeeps portId id deep = true := by
  have hqueue : c.evictQueue = ⟨[], none⟩ := by
    have hdata : c.evictBuf.hasData = false := by simpa [EvictBuf.empty] using hempty
    rw [Cache.evictQueue, hactions, EvictBuf.user, hdata]
    rfl
  have hlinked : c.evictQueue.Linked := by
    rw [hqueue]
    exact ⟨trivial, rfl⟩
  obtain ⟨hlinked', hcomplete, hlines⟩ := Cache.runs_moves hok hlinked
  refine ⟨hlinked'.paired, hcomplete, ?_, fun portId id deep => Cache.cancel_lines_iff⟩
  rw [hqueue] at hlines
  exact hlines

/-! ### A load that replaces a modified line -/

/-- A functional cache in which every access replaces a modified line. -/
def evictConfig : Config (Addr → Byte) Unit :=
  { flatConfig with operationBegin := fun _ _ iss => (⟨true, .cacheEvict, 0, 0, true⟩, iss) }

def evictCache : Cache (Addr → Byte) Unit := { flatCache with ports := [smallPort] }

def lookup : List CacheOp := [.send 0 none load, .preCycle 1]

/-- The cycles in which the linefill and the eviction are done. -/
def cycles : List CacheOp := [.postCycle, .preCycle 2, .postCycle, .preCycle 3, .postCycle]

def runEvict (ops : List CacheOp) : List (List EvictEvent) × Cache (Addr → Byte) Unit :=
  Math.runs (Cache.step evictConfig) evictCache ops

def marked : List CacheOp := lookup ++ [.cancel 0 1 false] ++ cycles

/-- The modified line is written. -/
theorem writebacks_kept_marked :
    EvictEvent.queuedLines (runEvict marked).1.flatten =
        EvictEvent.writtenLines (runEvict marked).1.flatten ++
          (runEvict marked).2.evictQueue.lines ∧
      EvictEvent.writtenLines (runEvict marked).1.flatten = [(1, 0, 0)] := by
  have hok : Math.Along (Cache.step evictConfig) (fun c op => c.keeps op = true) evictCache
      marked := by decide +kernel
  exact ⟨(writebacks_kept rfl rfl hok).2.2.1, by decide +kernel⟩

/-- When the load is removed, its eviction is forgotten and its linefill stays. The line is not
written. -/
theorem deep_cancel_forgets_evict :
    (runEvict lookup).2.actions.map (·.type) = [.linefill, .evict] ∧
      (runEvict (lookup ++ [.cancel 0 1 true])).2.actions.map (·.type) = [.linefill] ∧
      EvictEvent.queuedLines (runEvict (lookup ++ [.cancel 0 1 true] ++ cycles)).1.flatten =
        [(1, 0, 0)] ∧
      EvictEvent.writtenLines (runEvict (lookup ++ [.cancel 0 1 true] ++ cycles)).1.flatten =
        [] := by
  decide +kernel

end Adl.Uadl
