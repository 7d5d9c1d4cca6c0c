import Adl.Uadl.WriteBack

/-!
# How many stores wait

A store waits in the store buffer until the next level takes it. Clients ask before they write; the
answer compares the number of stores that wait with the size of the buffer, but for one too many.
-/

namespace Adl.Uadl

variable {ν ι : Type*}

namespace Cache

variable {cfg : Config ν ι} {c : Cache ν ι}

/-! ### Parts that leave the counts -/

section Frame

variable {i : ℕ} {a : NextLevelAction}

theorem counts_postLinefill : (c.postLinefill cfg i a).2.counts = c.counts := by
  have hstart : (if a.started then c else c.startLinefill cfg i a).counts = c.counts := by
    split
    · rfl
    · exact counts_of_schedule schedule_startLinefill
  rw [postLinefill]
  generalize (if a.started then c else c.startLinefill cfg i a) = c' at hstart
  dsimp only
  split
  · rw [counts_of_work work_lockLookups, counts_of_control control_sendLinefill, hstart]
  · rw [counts_of_control control_sendLinefill, hstart]

theorem counts_postLoop {fuel storeBufId : ℕ} :
    (postLoop cfg fuel storeBufId i c).counts = c.counts := by
  induction fuel generalizing storeBufId i c with
  | zero => rfl
  | succ fuel ih =>
    rw [postLoop]
    split
    · rfl
    · rename_i a _
      have hpost : (c.postAction cfg storeBufId i a).2.counts = c.counts := by
        rw [postAction]
        split
        · exact counts_postLinefill
        · exact counts_of_schedule schedule_postEvict
        · exact counts_of_schedule schedule_postRead
        · exact counts_of_schedule schedule_postStore
      split <;> rename_i heq <;> rw [heq] at hpost
      · rw [ih]
        exact hpost
      · exact hpost

end Frame

/-! ### Operations -/

section Operations

theorem preCycle_storeBuf (h : c.command = .cacheNoAccess) :
    (c.preCycle cfg).storeBuf.length ≤ c.storeBuf.length ∧
      (c.preCycle cfg).command = .cacheNoAccess := by
  have hbegin : (c.beginCycle cfg).counts = c.counts :=
    (counts_of_work work_lookupTimes).trans rfl
  simp only [counts, Prod.mk.injEq] at hbegin
  have hdata : Drains (c.beginCycle cfg) (c.dataDone cfg) := dataPhase_drains
  have hdone : (c.dataDone cfg).command = .cacheNoAccess :=
    hdata.command.trans (hbegin.2.2.trans h)
  have hgrows := @preCycle_grows _ _ cfg c
  exact ⟨(hgrows.storeBuf hdone).le.trans (hdata.storeBuf.trans hbegin.2.1.le),
    hgrows.command hdone⟩

theorem write_storeBuf {data : ℕ → Byte} :
    (c.write cfg data).storeBuf.length =
      c.storeBuf.length + ((c.requests.head?).any (·.useStoreBuf)).toNat ∧
      (c.write cfg data).command = c.command := by
  rw [write, requests_consumeDataBandwidth]
  cases c.requests.head? with
  | none => exact ⟨rfl, rfl⟩
  | some r =>
    have hdata : ((c.onMemory fun m => m.modifyPort 0 (·.consumeDataBandwidth m.currTime)).writeData
        cfg r data).counts = c.counts :=
      counts_of_control (control_writeData.trans (control_onMemory rfl))
    simp only [counts, Prod.mk.injEq] at hdata
    dsimp only
    generalize (c.onMemory fun m => m.modifyPort 0 (·.consumeDataBandwidth m.currTime)).writeData
      cfg r data = c' at hdata ⊢
    rw [← hdata.2.1, ← hdata.2.2, Option.any_some, writeStore]
    cases hbuf : r.useStoreBuf with
    | true => exact ⟨by simp [onMemory], rfl⟩
    | false =>
      rw [if_neg (by simp)]
      split <;> exact ⟨rfl, rfl⟩

theorem cancel_storeBuf {portId : ℕ} {id : ReqId} {deep : Bool} :
    (c.cancel cfg portId id deep).storeBuf = c.storeBuf ∧
      (c.cancel cfg portId id deep).command = c.command := by
  rw [cancel]
  split
  · exact ⟨rfl, rfl⟩
  · dsimp only
    split <;> split <;> exact ⟨rfl, rfl⟩

end Operations

end Cache

/-- Commands are not requests. -/
def CacheOp.isCommand : CacheOp → Bool
  | .command .. => true
  | _ => false

/-- A write whose store goes to the store buffer. -/
def CacheOp.stores (cfg : Config ν ι) (c : Cache ν ι) : CacheOp → Bool
  | .write iid id _ => c.writeInquire cfg iid id && (c.requests.head?).any (·.useStoreBuf)
  | _ => false

namespace Cache

variable {cfg : Config ν ι} {c : Cache ν ι}

theorem exec_storeBuf {op : CacheOp} (hop : op.isCommand = false)
    (h : c.command = .cacheNoAccess) :
    (c.exec cfg op).command = .cacheNoAccess ∧
      if op.stores cfg c then (c.exec cfg op).storeBuf.length = c.storeBuf.length + 1
      else (c.exec cfg op).storeBuf.length ≤ c.storeBuf.length := by
  cases op with
  | send portId iid request =>
    rw [exec]
    split <;> exact ⟨h, le_rfl⟩
  | read iid id =>
    rw [exec]
    split
    · have hread := Grows.of_control (@control_read _ _ cfg c)
      exact ⟨hread.command h, (hread.storeBuf h).le⟩
    · exact ⟨h, le_rfl⟩
  | write iid id data =>
    obtain ⟨hlength, hcommand⟩ := @write_storeBuf _ _ cfg c data
    rw [exec, CacheOp.stores]
    by_cases hinq : c.writeInquire cfg iid id = true
    · rw [if_pos hinq, hinq, Bool.true_and]
      refine ⟨hcommand.trans h, ?_⟩
      rw [hlength]
      split <;> rename_i huse
      · rw [huse]
        rfl
      · rw [Bool.eq_false_iff.mpr huse]
        exact le_rfl
    · rw [if_neg hinq, Bool.eq_false_iff.mpr hinq]
      exact ⟨h, le_rfl⟩
  | command request lineSet lineWay => cases hop
  | cancel portId id deep =>
    obtain ⟨hbuf, hcommand⟩ := @cancel_storeBuf _ _ cfg c portId id deep
    exact ⟨hcommand.trans h, (congrArg List.length hbuf).le⟩
  | preCycle time =>
    obtain ⟨hle, hcommand⟩ := @preCycle_storeBuf _ _ cfg { c with currTime := time } h
    exact ⟨hcommand, hle⟩
  | postCycle =>
    have hpost := @counts_postLoop _ _ cfg c 0 (min c.nActions.toNat c.actions.length) 0
    simp only [counts, Prod.mk.injEq] at hpost
    exact ⟨hpost.2.2.trans h, hpost.2.1.le⟩

theorem length_le_of_stores {op : CacheOp} (hsize : cfg.storeBufSize ≠ 0)
    (h : op.stores cfg c = true) : c.storeBuf.length ≤ cfg.storeBufSize := by
  cases op with
  | write iid id data =>
    rw [CacheOp.stores, writeInquire, Bool.and_eq_true, Bool.and_eq_true] at h
    obtain ⟨⟨-, hhead⟩, huse⟩ := h
    cases hr : c.requests.head? with
    | none => simp [hr] at huse
    | some r =>
      rw [hr, Option.any_some] at hhead huse
      simp only [huse, hsize, Bool.and_eq_true] at hhead
      simpa using hhead.1
  | _ => cases h

end Cache

variable {cfg : Config ν ι} {c : Cache ν ι}

/-- The cache after the first `n` operations. -/
def Cache.after (cfg : Config ν ι) (c : Cache ν ι) (ops : List CacheOp) (n : ℕ) : Cache ν ι :=
  (ops.take n).foldl (Cache.exec cfg) c

section Run

variable {ops : List CacheOp} {n : ℕ} {op : CacheOp}

theorem Cache.after_succ (h : ops[n]? = some op) :
    c.after cfg ops (n + 1) = (c.after cfg ops n).exec cfg op := by
  rw [Cache.after, List.take_add_one, h, Option.toList_some, List.foldl_append]
  rfl

theorem Cache.after_of_none (h : ops[n]? = none) :
    c.after cfg ops (n + 1) = c.after cfg ops n := by
  rw [Cache.after, List.take_add_one, h, Option.toList_none, List.append_nil]
  rfl

theorem Cache.command_after (hcommand : c.command = .cacheNoAccess)
    (hops : ∀ op ∈ ops, op.isCommand = false) : (c.after cfg ops n).command = .cacheNoAccess := by
  induction n with
  | zero => exact hcommand
  | succ n ih =>
    cases h : ops[n]? with
    | none => rwa [Cache.after_of_none h]
    | some op =>
      rw [Cache.after_succ h]
      exact (Cache.exec_storeBuf (hops op (List.mem_of_getElem? h)) ih).1

theorem Cache.length_storeBuf_after (hcommand : c.command = .cacheNoAccess)
    (hops : ∀ op ∈ ops, op.isCommand = false) (h : ops[n]? = some op) :
    if op.stores cfg (c.after cfg ops n)
      then (c.after cfg ops (n + 1)).storeBuf.length = (c.after cfg ops n).storeBuf.length + 1
      else (c.after cfg ops (n + 1)).storeBuf.length ≤ (c.after cfg ops n).storeBuf.length := by
  rw [Cache.after_succ h]
  exact (Cache.exec_storeBuf (hops op (List.mem_of_getElem? h)) (command_after hcommand hops)).2

theorem Cache.storeBuf_after_le (hbuf : c.storeBuf = []) (hcommand : c.command = .cacheNoAccess)
    (hops : ∀ op ∈ ops, op.isCommand = false) {bound : ℕ}
    (hlt : ∀ n op, ops[n]? = some op → op.stores cfg (c.after cfg ops n) = true →
      (c.after cfg ops n).storeBuf.length < bound) (n : ℕ) :
    (c.after cfg ops n).storeBuf.length ≤ bound := by
  induction n with
  | zero => exact (congrArg List.length hbuf).trans_le (Nat.zero_le _)
  | succ n ih =>
    cases h : ops[n]? with
    | none => rwa [Cache.after_of_none h]
    | some op =>
      have hlength := @length_storeBuf_after _ _ cfg c ops n op hcommand hops h
      split at hlength <;> rename_i hstores
      · rw [hlength]
        exact hlt n op h hstores
      · exact hlength.trans ih

/-- The store buffer never has more than one store too many. It has none too many exactly if every
store finds a free place. -/
theorem storeBuf_limited_iff (hbuf : c.storeBuf = []) (hcommand : c.command = .cacheNoAccess)
    (hsize : cfg.storeBufSize ≠ 0) {ops : List CacheOp} (hops : ∀ op ∈ ops, op.isCommand = false) :
    (∀ n, (c.after cfg ops n).storeBuf.length ≤ cfg.storeBufSize + 1) ∧
    ((∀ n, (c.after cfg ops n).storeBuf.length ≤ cfg.storeBufSize) ↔
      ∀ n op, ops[n]? = some op → op.stores cfg (c.after cfg ops n) = true →
        (c.after cfg ops n).storeBuf.length < cfg.storeBufSize) := by
  refine ⟨Cache.storeBuf_after_le hbuf hcommand hops fun n op _ hstores => ?_,
    fun hle n op h hstores => ?_, Cache.storeBuf_after_le hbuf hcommand hops⟩
  · exact Nat.lt_succ_of_le (Cache.length_le_of_stores hsize hstores)
  · -- the store is in the buffer afterwards, which is not too long then
    have hlength := @Cache.length_storeBuf_after _ _ cfg c ops n op hcommand hops h
    rw [if_pos hstores] at hlength
    have := hle (n + 1)
    omega

end Run

/-! ### A buffer for one store -/

def storeConfig : Config (Addr → Byte) Unit :=
  { flatConfig with
    write2nextLatency := 4
    storeBufSize := 1
    operationBegin := fun _ _ iss => (⟨false, .cacheNone, 0, 0, false⟩, iss) }

/-- Stores that are sent and written in two cycles each. -/
def stores (n : ℕ) : List CacheOp :=
  (List.range n).flatMap fun k =>
    [.preCycle (2 * k), .send 0 none { load with type := .cacheWrite }, .postCycle,
      .preCycle (2 * k + 1), .write none (k + 1) fun _ => 0, .postCycle]

def storeState (n : ℕ) : Cache (Addr → Byte) Unit := evictCache.after storeConfig (stores n) (6 * n)

/-- One store is in the buffer, and there never are more. -/
theorem one_store_fits :
    (storeState 1).storeBuf.length = 1 ∧
      ∀ n, (evictCache.after storeConfig (stores 1) n).storeBuf.length ≤ 1 := by
  refine ⟨by decide +kernel, (@storeBuf_limited_iff _ _ storeConfig evictCache rfl rfl (by decide)
    (stores 1) ?_).2.mpr ?_⟩
  · have hall : (stores 1).all (fun op => !op.isCommand) := by decide +kernel
    simpa using hall
  · have hall : ∀ n < 6, ((stores 1)[n]?).all (fun op =>
        !op.stores storeConfig (evictCache.after storeConfig (stores 1) n) ||
          decide ((evictCache.after storeConfig (stores 1) n).storeBuf.length < 1)) := by
      decide +kernel
    intro n op hop hstores
    have h := hall n (List.getElem?_eq_some_iff.mp hop).1
    rw [hop, Option.all_some, hstores] at h
    exact of_decide_eq_true h

/-- A second store is admitted while the first one waits. -/
theorem second_store_too_many :
    storeConfig.storeBufSize = 1 ∧ (storeState 2).storeBuf.length = 2 := by
  decide +kernel

end Adl.Uadl
