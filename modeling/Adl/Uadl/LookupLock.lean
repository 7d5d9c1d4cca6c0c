import Adl.Uadl.WriteBack

/-!
# When lookups are locked

A linefill plans that the cache makes no lookups for some cycles. The times at which lookups are
disabled and enabled wait in two queues; only the first time of each is compared with the current
time, so that one that has passed would stay in front.
-/

namespace Adl.Uadl

open Math

variable {ν ι : Type*}

/-! ### Times -/

/-- The times of the two queues are intervals, which follow each other and begin after `t`. -/
def Intervals : ℕ → List ℕ → List ℕ → Prop
  | _, [], [] => True
  | t, d :: ds, e :: es => t < d ∧ d ≤ e ∧ Intervals e ds es
  | _, _, _ => False

namespace Intervals

variable {t d e : ℕ} {ds es : List ℕ}

theorem append (h : Intervals t ds es) (hlast : (t :: es).getLast (List.cons_ne_nil _ _) < d)
    (hde : d ≤ e) : Intervals t (ds ++ [d]) (es ++ [e]) := by
  induction es generalizing t ds with
  | nil =>
    cases ds with
    | nil => exact ⟨hlast, hde, trivial⟩
    | cons d' ds => exact h.elim
  | cons e' es ih =>
    cases ds with
    | nil => exact h.elim
    | cons d' ds => exact ⟨h.1, h.2.1, ih h.2.2 (by simpa using hlast)⟩

theorem extend (h : Intervals t ds es) (hes : es ≠ []) (hlast : es.getLast hes < e) :
    Intervals t ds (es.dropLast ++ [e]) := by
  induction es generalizing t ds with
  | nil => exact absurd rfl hes
  | cons e' es ih =>
    cases ds with
    | nil => exact h.elim
    | cons d' ds =>
      obtain ⟨hd, hde, hrest⟩ := h
      cases es with
      | nil =>
        cases ds with
        | nil => exact ⟨hd, hde.trans hlast.le, trivial⟩
        | cons _ _ => exact hrest.elim
      | cons e'' es => exact ⟨hd, hde, ih hrest (List.cons_ne_nil _ _) hlast⟩

theorem lt_of_mem (h : Intervals t ds es) {x : ℕ} (hx : x ∈ ds ∨ x ∈ es) : t < x := by
  induction es generalizing t ds with
  | nil =>
    cases ds with
    | nil => simp at hx
    | cons _ _ => exact h.elim
  | cons e' es ih =>
    cases ds with
    | nil => exact h.elim
    | cons d' ds =>
      obtain ⟨hd, hde, hrest⟩ := h
      simp only [List.mem_cons] at hx
      rcases hx with (rfl | hx) | (rfl | hx)
      · exact hd
      · exact (hd.trans_le hde).trans (ih hrest (.inl hx))
      · exact hd.trans_le hde
      · exact (hd.trans_le hde).trans (ih hrest (.inr hx))

theorem ne_of_mem {e : ℕ} (h : Intervals e ds es) (hte : t < e) {x : ℕ} (hx : x ∈ ds ∨ x ∈ es) :
    x ≠ t + 1 := by
  have hlt := h.lt_of_mem hx
  omega

theorem head?_of_mem (h : Intervals t ds es) :
    (t + 1 ∈ ds → ds.head? = some (t + 1)) ∧ (t + 1 ∈ es → es.head? = some (t + 1)) := by
  cases ds with
  | nil =>
    cases es with
    | nil => simp
    | cons _ _ => exact h.elim
  | cons d ds =>
    cases es with
    | nil => exact h.elim
    | cons e es =>
      obtain ⟨hd, hde, hrest⟩ := h
      have hlater {x : ℕ} := hrest.ne_of_mem (hd.trans_le hde) (x := x)
      constructor <;> intro hmem <;> rcases List.mem_cons.mp hmem with heq | hmem
      · rw [heq, List.head?_cons]
      · exact absurd rfl (hlater (.inl hmem))
      · rw [heq, List.head?_cons]
      · exact absurd rfl (hlater (.inr hmem))

end Intervals

/-- At time `t` all planned times are to come. While lookups are disabled, the time at which they
are enabled is the first one. -/
def Planned : ℕ × Bool × List ℕ × List ℕ → Prop
  | (t, true, ds, es) => Intervals t ds es
  | (t, false, ds, e :: es) => t < e ∧ Intervals e ds es
  | (_, false, _, []) => False

theorem Planned.head?_of_mem {t : ℕ} {can : Bool} {ds es : List ℕ} (h : Planned (t, can, ds, es)) :
    (t + 1 ∈ ds → ds.head? = some (t + 1)) ∧ (t + 1 ∈ es → es.head? = some (t + 1)) := by
  cases can with
  | true => exact Intervals.head?_of_mem h
  | false =>
    cases es with
    | nil => exact h.elim
    | cons e es =>
      obtain ⟨he, hrest⟩ := h
      have hlater {x : ℕ} := hrest.ne_of_mem he (x := x)
      refine ⟨fun hmem => absurd rfl (hlater (.inl hmem)), fun hmem => ?_⟩
      rcases List.mem_cons.mp hmem with heq | hmem
      · rw [heq, List.head?_cons]
      · exact absurd rfl (hlater (.inr hmem))

/-- An interval behind the last one. -/
theorem Planned.append {t d e : ℕ} {can : Bool} {ds es : List ℕ} (h : Planned (t, can, ds, es))
    (htd : t < d) (hlast : ∀ x ∈ es.getLast?, x < d) (hde : d ≤ e) :
    Planned (t, can, ds ++ [d], es ++ [e]) := by
  cases can with
  | true =>
    refine Intervals.append h ?_ hde
    cases es with
    | nil => exact htd
    | cons e' es => exact hlast _ (by simp [List.getLast?_eq_some_getLast])
  | false =>
    cases es with
    | nil => exact h.elim
    | cons e' es =>
      exact ⟨h.1, h.2.append (hlast _ (by simp [List.getLast?_eq_some_getLast])) hde⟩

/-- The last interval becomes longer, or the time until lookups are enabled. -/
theorem Planned.extend {t e x : ℕ} {can : Bool} {ds es : List ℕ} (h : Planned (t, can, ds, es))
    (hx : es.getLast? = some x) (hlt : x < e) : Planned (t, can, ds, es.dropLast ++ [e]) := by
  have hes : es ≠ [] := fun hnil => by simp [hnil] at hx
  have hlast : es.getLast hes = x :=
    Option.some.inj ((List.getLast?_eq_some_getLast hes).symm.trans hx)
  cases can with
  | true => exact Intervals.extend h hes (hlast ▸ hlt)
  | false =>
    cases es with
    | nil => exact h.elim
    | cons e' es =>
      obtain ⟨he, hrest⟩ := h
      cases es with
      | nil =>
        cases ds with
        | nil =>
          obtain rfl : e' = x := hlast
          exact ⟨he.trans hlt, trivial⟩
        | cons _ _ => exact hrest.elim
      | cons e'' es => exact ⟨he, hrest.extend (List.cons_ne_nil _ _) (hlast ▸ hlt)⟩

namespace Memory

variable {m : Memory}

@[simp] theorem currTime_sendRequest {portId : ℕ} {r : ClientRequest} :
    (m.sendRequest portId r).currTime = m.currTime := by
  rw [sendRequest]
  dsimp only
  split
  · rfl
  · split <;> rfl

@[simp] theorem currTime_checkWaitingForCancel {id : ReqId} {deep : Bool} :
    (m.checkWaitingForCancel id deep).currTime = m.currTime := by
  rw [checkWaitingForCancel]
  split
  · split <;> rfl
  · rfl

@[simp] theorem currTime_saveQueueStatus {cfg : MemoryConfig} :
    (m.saveQueueStatus cfg).currTime = m.currTime := by
  rw [saveQueueStatus]
  split <;> rfl

@[simp] theorem currTime_checkDelayedUnlock : m.checkDelayedUnlock.currTime = m.currTime := by
  rw [checkDelayedUnlock]
  split
  · split <;> rfl
  · rfl

end Memory

namespace Cache

variable {cfg : Config ν ι} {c c' : Cache ν ι}

/-! ### Parts that leave the queues -/

section Frame

theorem lookups_onMemory {f : Memory → Memory} (h : (f c.toMemory).currTime = c.currTime) :
    (c.onMemory f).lookups = c.lookups :=
  lookups_of_control (control_onMemory h)

theorem lookups_lookupTimes (h : c'.lookups = c.lookups) :
    c'.lookupTimes.lookups = c.lookupTimes.lookups := by
  simp only [lookups, Prod.mk.injEq] at h
  obtain ⟨htime, hcan, hdisable, henable⟩ := h
  simp only [lookupTimes, hdisable, htime]
  split <;> simp only [henable, htime] <;> split <;>
    simp [lookups, htime, hcan, hdisable, henable]

theorem lookups_preCycle : (c.preCycle cfg).lookups = c.lookupTimes.lookups := by
  have hbegin : (c.beginCycle cfg).lookups = c.lookupTimes.lookups :=
    lookups_lookupTimes (lookups_onMemory (by simp))
  have hdata : Drains (c.beginCycle cfg) (c.dataDone cfg) := dataPhase_drains
  exact preCycle_grows.lookups.trans (hdata.lookups.trans hbegin)

theorem lookups_write {data : ℕ → Byte} : (c.write cfg data).lookups = c.lookups := by
  have hstore {c : Cache ν ι} {r : MemoryRequest} :
      (c.writeStore cfg r data).lookups = c.lookups := by
    rw [writeStore]
    split
    · rfl
    · split <;> rfl
  rw [write]
  split
  · rfl
  · rw [lookups_of_control control_removeRequest, hstore, lookups_of_control control_writeData]
    rfl

theorem lookups_cancel {portId : ℕ} {id : ReqId} {deep : Bool} :
    (c.cancel cfg portId id deep).lookups = c.lookups := by
  have hnext {b : Bool} :
      (if b then c.cancelNextLevelRequest cfg id else c).lookups = c.lookups := by
    cases b <;> rfl
  rw [cancel]
  split
  · exact lookups_onMemory Memory.currTime_checkWaitingForCancel
  · dsimp only
    split
    · exact (lookups_onMemory Memory.currTime_addWaitingRequest).trans hnext
    · exact hnext

end Frame

/-! ### Steps -/

theorem planned_lookupTimes (h : Planned c.lookups) :
    Planned ({ c with currTime := c.currTime + 1 }.lookupTimes).lookups := by
  rw [lookups] at h
  cases hcan : c.canLookup with
  | true =>
    rw [hcan] at h
    cases hds : c.lookupDisableTimes with
    | nil =>
      cases hes : c.lookupEnableTimes with
      | nil => simp [lookupTimes, lookups, Planned, Intervals]
      | cons e es => simp [hds, hes, Planned, Intervals] at h
    | cons d ds =>
      cases hes : c.lookupEnableTimes with
      | nil => simp [hds, hes, Planned, Intervals] at h
      | cons e es =>
        rw [hds, hes] at h
        obtain ⟨hd, hde, hrest⟩ := h
        by_cases hnow : d = c.currTime + 1
        · -- a lock can end in the cycle in which it begins
          by_cases hend : e = c.currTime + 1
          · simp [lookupTimes, lookups, hnow, hend, Planned]
            exact hend ▸ hrest
          · simp [lookupTimes, lookups, hnow, hend, Planned]
            exact ⟨by omega, hrest⟩
        · have hend : e ≠ c.currTime + 1 := by omega
          simp [lookupTimes, lookups, hnow, hend, Planned]
          exact ⟨by omega, hde, hrest⟩
  | false =>
    rw [hcan] at h
    cases hes : c.lookupEnableTimes with
    | nil => simp [hes, Planned] at h
    | cons e es =>
      rw [hes] at h
      obtain ⟨he, hrest⟩ := h
      -- the next lock begins behind the end of this one
      have hlater : c.lookupDisableTimes.head? ≠ some (c.currTime + 1) := fun hhead =>
        hrest.ne_of_mem he (.inl (List.mem_of_mem_head? hhead)) rfl
      by_cases hend : e = c.currTime + 1
      · simp [lookupTimes, lookups, hlater, hend, Planned]
        exact hend ▸ hrest
      · simp [lookupTimes, lookups, hlater, hend, Planned]
        exact ⟨by omega, hrest⟩

/-- Locks are planned for later cycles, or there are none. -/
def LocksLater (cfg : Config ν ι) : Prop :=
  0 < cfg.linefillLockHoldoffCycle ∨ cfg.linefillLockCycle = 0 ∧ cfg.evictLockCycle = 0

theorem planned_lockLookups (hcfg : LocksLater cfg) (h : Planned c.lookups) {a : NextLevelAction}
    {b : Bool} : Planned (c.lockLookups cfg a b).lookups := by
  have hlock (hnone : cfg.linefillLockHoldoffCycle = 0) :
      (if cfg.linefillLockOnValid && !b then 0
        else cfg.linefillLockCycle + if a.hasParallelEvict then cfg.evictLockCycle else 0) = 0 := by
    obtain ⟨hfill, hevict⟩ := hcfg.resolve_left (by omega)
    simp [hfill, hevict]
  rw [lockLookups]
  generalize (if cfg.linefillLockOnValid && !b then 0
    else cfg.linefillLockCycle + if a.hasParallelEvict then cfg.evictLockCycle else 0) = lock
    at hlock ⊢
  dsimp only
  split
  · exact h
  · generalize hdisable : (if cfg.linefillLockHoldoffCycle = 1 ∧ a.replaceLine = false ∧
      c.memDataBusBusy = false then _ else _ : ℕ) = d
    -- the lock begins later than now, and one more cycle of delay does not pass its end
    have hd : c.currTime < d ∧ d ≤ c.currTime + cfg.linefillLockHoldoffCycle + lock := by
      rw [← hdisable]
      split <;> omega
    cases hx : c.lookupEnableTimes.getLast? with
    | none => exact Planned.append h hd.1 (by simp [hx]) hd.2
    | some x =>
      simp only [Option.all_some, Option.any_some, decide_eq_true_eq]
      split
      · rename_i hlt
        exact Planned.append h hd.1 (by simpa [hx] using hlt) hd.2
      · split
        · rename_i hlt
          exact Planned.extend h hx hlt
        · exact h

theorem planned_postLinefill (hcfg : LocksLater cfg) (h : Planned c.lookups) {i : ℕ}
    {a : NextLevelAction} : Planned (c.postLinefill cfg i a).2.lookups := by
  have hstart : (if a.started then c else c.startLinefill cfg i a).lookups = c.lookups := by
    split
    · rfl
    · exact lookups_of_schedule schedule_startLinefill
  rw [postLinefill]
  generalize (if a.started then c else c.startLinefill cfg i a) = c' at hstart
  have hsend : Planned (c'.sendLinefill cfg i).2.lookups := by
    rw [lookups_of_control control_sendLinefill, hstart]
    exact h
  dsimp only
  split
  · exact planned_lockLookups hcfg hsend
  · exact hsend

theorem planned_postAction (hcfg : LocksLater cfg) (h : Planned c.lookups) {storeBufId i : ℕ}
    {a : NextLevelAction} : Planned (c.postAction cfg storeBufId i a).2.lookups := by
  rw [postAction]
  split
  · exact planned_postLinefill hcfg h
  · rw [lookups_of_schedule schedule_postEvict]
    exact h
  · rw [postRead]
    split
    · split <;> exact h
    · exact h
  · rw [postStore]
    split
    · split <;> exact h
    · exact h

theorem planned_postLoop (hcfg : LocksLater cfg) (h : Planned c.lookups) {fuel storeBufId i : ℕ} :
    Planned (postLoop cfg fuel storeBufId i c).lookups := by
  induction fuel generalizing storeBufId i c with
  | zero => exact h
  | succ fuel ih =>
    rw [postLoop]
    split
    · exact h
    · rename_i a _
      have hpost := @planned_postAction _ _ cfg c hcfg h storeBufId i a
      split <;> rename_i heq <;> rw [heq] at hpost
      · exact ih hpost
      · exact hpost

/-- Cycles follow each other. -/
def OnTime (c : Cache ν ι) : CacheOp → Prop
  | .preCycle time => time = c.currTime + 1
  | _ => True

instance OnTime.decidable (c : Cache ν ι) : ∀ op, Decidable (c.OnTime op)
  | .preCycle time => inferInstanceAs (Decidable (time = c.currTime + 1))
  | .send .. | .read .. | .write .. | .command .. | .cancel .. | .postCycle => .isTrue trivial

theorem planned_exec (hcfg : LocksLater cfg) {op : CacheOp} (hop : c.OnTime op)
    (h : Planned c.lookups) : Planned (c.exec cfg op).lookups := by
  cases op with
  | send portId iid request =>
    rw [exec]
    split
    · rw [sendRequest, lookups_onMemory Memory.currTime_sendRequest]
      exact h
    · exact h
  | read iid id =>
    rw [exec]
    split
    · rw [lookups_of_control control_read]
      exact h
    · exact h
  | write iid id data =>
    rw [exec]
    split
    · rw [lookups_write]
      exact h
    · exact h
  | command request lineSet lineWay =>
    rw [exec]
    split
    · have hsend : (c.onMemory (·.sendRequest 0 request)).lookups = c.lookups :=
        lookups_onMemory Memory.currTime_sendRequest
      exact hsend ▸ h
    · exact h
  | cancel portId id deep =>
    rw [exec, lookups_cancel]
    exact h
  | preCycle time =>
    obtain rfl : time = c.currTime + 1 := hop
    rw [exec, lookups_preCycle]
    exact planned_lookupTimes h
  | postCycle => exact planned_postLoop hcfg h

/-! ### Runs -/

/-- What happens in the cycle at time `t`, which leads from `c` to `c'`: lookups are disabled and
enabled as planned. Where both happen, lookups are enabled. -/
structure TakesEffect (t : ℕ) (c c' : Cache ν ι) : Prop where
  disabled : t ∈ c.lookupDisableTimes → t ∉ c.lookupEnableTimes → c'.canLookup = false
  enabled : t ∈ c.lookupEnableTimes → c'.canLookup = true

theorem takesEffect_preCycle (h : Planned c.lookups) :
    TakesEffect (c.currTime + 1) c (c.exec cfg (.preCycle (c.currTime + 1))) := by
  -- both queues are compared with the time at their front only
  have hnext : (c.exec cfg (.preCycle (c.currTime + 1))).canLookup =
      ({ c with currTime := c.currTime + 1 }.lookupTimes).canLookup :=
    congrArg (·.2.1) lookups_preCycle
  refine ⟨fun hmem hnot => ?_, fun hmem => ?_⟩ <;> rw [hnext]
  · have hhead := h.head?_of_mem.1 hmem
    have henable : c.lookupEnableTimes.head? ≠ some (c.currTime + 1) :=
      fun hhead => hnot (List.mem_of_mem_head? hhead)
    simp [lookupTimes, hhead, henable]
  · have hhead := h.head?_of_mem.2 hmem
    rw [lookupTimes, if_pos (by split <;> exact hhead)]

/-- In every run of a cache with a hold-off of at least one cycle, or without locks, the planned
times are intervals to come, and in the next cycle they take effect. -/
theorem lookup_lock_ends (hcfg : LocksLater cfg) (hcan : c.canLookup = true)
    (hdisable : c.lookupDisableTimes = []) (henable : c.lookupEnableTimes = [])
    (ops : List CacheOp) (hops : Permits (exec cfg) OnTime c ops) :
    let c' := ops.foldl (exec cfg) c
    Planned c'.lookups ∧
      TakesEffect (c'.currTime + 1) c' (c'.exec cfg (.preCycle (c'.currTime + 1))) := by
  have hstart : Planned c.lookups := by
    rw [lookups, hcan, hdisable, henable]
    exact trivial
  have hplanned := foldl_invariant (P := fun c => Planned c.lookups)
    (fun c op hop h => planned_exec hcfg hop h) hops hstart
  exact ⟨hplanned, takesEffect_preCycle hplanned⟩

end Cache

/-- A load that misses, and whose linefill starts in the second cycle. -/
def missOps : List CacheOp := [.send 0 none load, .preCycle 1, .postCycle, .preCycle 2, .postCycle]

/-- A cache in which a linefill locks lookups for two cycles. -/
def lockConfig (holdoff : ℕ) : Config (Addr → Byte) Unit :=
  { flatConfig with linefillLockCycle := 2, linefillLockHoldoffCycle := holdoff }

def lockCache : Cache (Addr → Byte) Unit := { flatCache with ports := [smallPort] }

/-- Lookups are locked from the third cycle on, until the fifth. -/
theorem lock_next_cycle :
    let c := missOps.foldl (Cache.exec (lockConfig 1)) lockCache
    c.lookups = (2, true, [3], [5]) ∧ Planned c.lookups ∧
      Cache.TakesEffect 3 c (c.exec (lockConfig 1) (.preCycle 3)) := by
  have hops : Permits (Cache.exec (lockConfig 1)) Cache.OnTime lockCache missOps := by
    decide +kernel
  obtain ⟨hplanned, heffect⟩ :=
    Cache.lookup_lock_ends (.inl (by decide)) rfl rfl rfl missOps hops
  have htime : (missOps.foldl (Cache.exec (lockConfig 1)) lockCache).currTime = 2 := by
    decide +kernel
  rw [htime] at heffect
  exact ⟨by decide +kernel, hplanned, heffect⟩

/-- Without a hold-off the lock is planned for a cycle that has begun. It does not take effect, and
its time stays in front of the queue. -/
theorem lock_without_holdoff :
    let c := missOps.foldl (Cache.exec (lockConfig 0)) lockCache
    c.lookups = (2, true, [2], [4]) ∧ ¬Planned c.lookups ∧
      (c.exec (lockConfig 0) (.preCycle 3)).lookups = (3, true, [2], [4]) ∧
      ((c.exec (lockConfig 0) (.preCycle 3)).exec (lockConfig 0) (.preCycle 4)).lookups =
        (4, true, [2], []) := by
  have hlookups : (missOps.foldl (Cache.exec (lockConfig 0)) lockCache).lookups =
      (2, true, [2], [4]) := by decide +kernel
  refine ⟨hlookups, fun h => ?_, by decide +kernel, by decide +kernel⟩
  rw [hlookups] at h
  exact absurd h.1 (Nat.lt_irrefl 2)

end Adl.Uadl
