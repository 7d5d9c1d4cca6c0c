import Adl.Uadl.Memory

/-!
# The lock of a memory

An instruction can lock a memory until it is unlocked, at once or after a number of cycles, counted
down while the memory is locked. An immediate unlock does not stop a countdown: it goes on when the
memory is locked the next time. The countdown is a signed number.
-/

namespace Adl.Uadl

namespace Memory

variable (cfg : MemoryConfig) (m : Memory)

/-! ### Locking -/

/-- Only the first port is looked at. -/
def emptyInquire : Bool := (m.ports[0]?).all (·.emptyRequests)

def lockInquire (iid : ℕ) : Bool := m.memLockInquire (some iid) && (m.locked || m.emptyInquire)

def forceLockInquire (iid : ℕ) : Bool := m.memLockInquire (some iid)

def unlockInquire (iid : ℕ) : Bool := m.memLockInquire (some iid)

def lockAction (iid : ℕ) : Memory := { m with locked := true, locker := iid }

def unlockAction : Memory := { m with locked := false }

/-- The delay becomes a signed number. -/
def unlockAfter (delay : BitVec 32) : Memory :=
  if delay ≠ 0 ∧ m.locked then { m with unlockDelay := delay.toInt } else m.unlockAction

end Memory

inductive LockOp where
  | lock (iid : ℕ)
  | forceLock (iid : ℕ)
  | unlock (iid : ℕ)
  | unlockAfter (iid : ℕ) (delay : BitVec 32)
  | preCycle
deriving DecidableEq

def LockOp.isUnlock : LockOp → Bool
  | unlock _ | unlockAfter _ _ => true
  | lock _ | forceLock _ | preCycle => false

namespace Memory

/-- What the inquiries allow. -/
def allows (m : Memory) : LockOp → Bool
  | .lock iid => m.lockInquire iid
  | .forceLock iid => m.forceLockInquire iid
  | .unlock iid | .unlockAfter iid _ => m.unlockInquire iid
  | .preCycle => true

def perform (cfg : MemoryConfig) (m : Memory) : LockOp → Memory
  | .lock iid | .forceLock iid => m.lockAction iid
  | .unlock _ => m.unlockAction
  | .unlockAfter _ delay => m.unlockAfter delay
  | .preCycle => m.preCycle cfg

def lockExec (cfg : MemoryConfig) (m : Memory) (op : LockOp) : Option Memory :=
  if m.allows op then some (m.perform cfg op) else none

variable {cfg : MemoryConfig} {m m' : Memory} {ops : List LockOp}

theorem lockExec_eq_some {op : LockOp} (h : lockExec cfg m op = some m') :
    m' = m.perform cfg op := by
  rw [lockExec] at h
  split at h
  · exact (Option.some.inj h).symm
  · cases h

/-! ### A cycle -/

/-- What a cycle does to requests leaves the lock alone. -/
def lockState (m : Memory) : Bool × ℤ := (m.locked, m.unlockDelay)

theorem lockState_removeRequest {portId : ℕ} :
    (m.removeRequest portId).lockState = m.lockState := by
  rw [removeRequest, addWaitingRequest]
  split <;> rfl

theorem lockState_dropLoop {fuel portId : ℕ} :
    (dropLoop fuel m portId).lockState = m.lockState := by
  induction fuel generalizing m with
  | zero => rfl
  | succ fuel ih =>
    rw [dropLoop]
    split
    · rw [ih, lockState_removeRequest]
    · rfl

theorem lockState_preCycle : (m.preCycle cfg).lockState = m.checkDelayedUnlock.lockState := by
  have hports (ports : List ℕ) (m : Memory) :
      (ports.foldl (fun m portId => m.preCyclePort cfg portId) m).lockState = m.lockState := by
    induction ports generalizing m with
    | nil => rfl
    | cons portId rest ih =>
      rw [List.foldl_cons, ih, preCyclePort, lockState_dropLoop]
      rfl
  have hsave : (m.saveQueueStatus cfg).checkDelayedUnlock.lockState =
      m.checkDelayedUnlock.lockState := by
    have hfields : (m.saveQueueStatus cfg).locked = m.locked ∧
        (m.saveQueueStatus cfg).unlockDelay = m.unlockDelay := by
      rw [saveQueueStatus]
      split <;> exact ⟨rfl, rfl⟩
    rw [checkDelayedUnlock, checkDelayedUnlock, hfields.1, hfields.2]
    split
    · split <;> simp [lockState]
    · simp [lockState, hfields]
  rw [preCycle, hports, hsave]

/-! ### Countdowns -/

/-- The number of cycles that are begun. -/
def preCycles (ops : List LockOp) : ℕ := ops.count .preCycle

theorem preCycles_cons_self : preCycles (.preCycle :: ops) = preCycles ops + 1 :=
  List.count_cons_self

theorem preCycles_cons_of_ne {op : LockOp} (h : op ≠ .preCycle) :
    preCycles (op :: ops) = preCycles ops :=
  List.count_cons_of_ne h

/-- A countdown is not over after `n` cycles. -/
def Lasts (delay : ℤ) (n : ℕ) : Prop := delay < 0 ∨ (n : ℤ) < max 1 delay

theorem lockState_checkDelayedUnlock {n : ℕ} (hlocked : m.locked = true)
    (h : Lasts m.unlockDelay (n + 1)) :
    m.checkDelayedUnlock.lockState =
      (true, if m.unlockDelay < 0 then m.unlockDelay else m.unlockDelay - 1) := by
  rw [checkDelayedUnlock]
  rcases h with h | h
  · rw [if_neg fun hpos => absurd hpos.2 (by omega), if_pos h, lockState, hlocked]
  · have hpos : ¬m.unlockDelay < 0 := by omega
    rw [if_pos ⟨hlocked, by omega⟩, if_neg (by omega), if_neg hpos, lockState, hlocked]

theorem run_held (hquiet : ∀ op ∈ ops, op.isUnlock = false) (hlocked : m.locked = true)
    (h : Lasts m.unlockDelay (preCycles ops)) (hrun : ops.foldlM (lockExec cfg) m = some m') :
    m'.lockState = (true, if m.unlockDelay < 0 then m.unlockDelay
      else m.unlockDelay - preCycles ops) := by
  induction ops generalizing m with
  | nil =>
    obtain rfl := Option.some.inj hrun
    simp [lockState, hlocked, preCycles]
  | cons op rest ih =>
    obtain ⟨hop, hrest⟩ := List.forall_mem_cons.mp hquiet
    rw [List.foldlM_cons] at hrun
    obtain ⟨m₁, hexec, hrun⟩ := Option.bind_eq_some_iff.mp hrun
    obtain rfl := lockExec_eq_some hexec
    cases op with
    | unlock _ | unlockAfter _ _ => cases hop
    | lock iid | forceLock iid =>
      -- the owner locks the memory again
      rw [preCycles_cons_of_ne LockOp.noConfusion] at h ⊢
      exact @ih (m.lockAction iid) hrest rfl h hrun
    | preCycle =>
      rw [preCycles_cons_self] at h ⊢
      have hstate := (@lockState_preCycle cfg m).trans (lockState_checkDelayedUnlock hlocked h)
      obtain ⟨hlocked', hdelay⟩ := Prod.mk.inj hstate
      have hlasts : Lasts (m.preCycle cfg).unlockDelay (preCycles rest) := by
        rw [Lasts] at h ⊢
        rw [hdelay]
        split <;> omega
      refine (@ih (m.preCycle cfg) hrest hlocked' hlasts hrun).trans (congrArg _ ?_)
      rw [hdelay]
      rcases h with h | h
      · rw [if_pos h, if_pos h, if_pos h]
      · rw [if_neg (by omega), if_neg (by omega), if_neg (by omega)]
        omega

theorem run_released (hquiet : ∀ op ∈ ops, op.isUnlock = false) (hlocked : m.locked = true)
    (hpos : 0 ≤ m.unlockDelay) (hlast : (preCycles ops : ℤ) + 1 = max 1 m.unlockDelay)
    (hrun : (ops ++ [LockOp.preCycle]).foldlM (lockExec cfg) m = some m') : m'.locked = false := by
  rw [List.foldlM_append] at hrun
  obtain ⟨m₁, hrun, hexec⟩ := Option.bind_eq_some_iff.mp hrun
  have hstate := run_held hquiet hlocked (.inr (by omega)) hrun
  rw [if_neg (by omega)] at hstate
  obtain ⟨hlocked₁, hdelay⟩ := Prod.mk.inj hstate
  obtain rfl : m₁.preCycle cfg = m' := Option.some.inj hexec
  refine (congrArg Prod.fst (@lockState_preCycle cfg m₁)).trans ?_
  rw [checkDelayedUnlock, if_pos ⟨hlocked₁, by omega⟩, if_pos (by omega)]
  rfl

/-- The start of the `k`-th cycle. -/
theorem exists_preCycle {k : ℕ} (h : k < preCycles ops) :
    ∃ front, front ++ [.preCycle] <+: ops ∧ preCycles front = k := by
  induction ops generalizing k with
  | nil => cases h
  | cons op rest ih =>
    by_cases hop : op = .preCycle
    · subst hop
      rw [preCycles_cons_self] at h
      cases k with
      | zero => exact ⟨[], List.prefix_append [_] rest, rfl⟩
      | succ k =>
        obtain ⟨front, hfront, hk⟩ := ih (by omega : k < preCycles rest)
        exact ⟨.preCycle :: front, (List.prefix_cons_inj _).mpr hfront,
          preCycles_cons_self.trans (congrArg (· + 1) hk)⟩
    · rw [preCycles_cons_of_ne hop] at h
      obtain ⟨front, hfront, hk⟩ := ih h
      exact ⟨op :: front, (List.prefix_cons_inj _).mpr hfront,
        (preCycles_cons_of_ne hop).trans hk⟩

/-! ### Ownership -/

/-- The lock is held in all states on the way. -/
def HeldThrough (cfg : MemoryConfig) (m : Memory) (ops : List LockOp) : Prop :=
  ∀ front m', front <+: ops → front.foldlM (lockExec cfg) m = some m' → m'.locked = true

/-- The lock is released at the start of the `k`-th cycle and not before. -/
def ReleasedAt (cfg : MemoryConfig) (m : Memory) (k : ℕ) (ops : List LockOp) : Prop :=
  (∀ front m', front <+: ops → preCycles front < k → front.foldlM (lockExec cfg) m = some m' →
    m'.locked = true) ∧
  ∀ front m', front ++ [.preCycle] <+: ops → preCycles front + 1 = k →
    (front ++ [LockOp.preCycle]).foldlM (lockExec cfg) m = some m' → m'.locked = false

theorem exists_of_prefix {front : List LockOp} (hrun : (ops.foldlM (lockExec cfg) m).isSome)
    (hfront : front <+: ops) : ∃ m', front.foldlM (lockExec cfg) m = some m' := by
  obtain ⟨rest, rfl⟩ := hfront
  obtain ⟨m', hm'⟩ := Option.isSome_iff_exists.mp hrun
  rw [List.foldlM_append] at hm'
  obtain ⟨m₁, hm₁, -⟩ := Option.bind_eq_some_iff.mp hm'
  exact ⟨m₁, hm₁⟩

section Quiet

variable (hquiet : ∀ op ∈ ops, op.isUnlock = false) (hlocked : m.locked = true)
include hquiet hlocked

theorem locked_of_lasts {front : List LockOp} (hfront : front <+: ops)
    (h : Lasts m.unlockDelay (preCycles front))
    (hrun : front.foldlM (lockExec cfg) m = some m') : m'.locked = true :=
  congrArg Prod.fst (run_held (fun op hop => hquiet op (hfront.subset hop)) hlocked h hrun)

theorem heldThrough_iff (hrun : (ops.foldlM (lockExec cfg) m).isSome) :
    HeldThrough cfg m ops ↔ Lasts m.unlockDelay (preCycles ops) := by
  constructor
  · intro hheld
    by_contra hover
    rw [Lasts, not_or] at hover
    -- the cycle in which the countdown is over
    obtain ⟨front, hfront, hk⟩ := exists_preCycle
      (by omega : (max 1 m.unlockDelay).toNat - 1 < preCycles ops)
    obtain ⟨m', hm'⟩ := exists_of_prefix hrun hfront
    have hfree := run_released
      (fun op hop => hquiet op (hfront.subset (List.mem_append_left _ hop))) hlocked (by omega)
      (by omega) hm'
    rw [hheld _ _ hfront hm'] at hfree
    cases hfree
  · intro h front m' hfront
    have hle : preCycles front ≤ preCycles ops := hfront.sublist.count_le _
    rw [Lasts] at h
    exact locked_of_lasts hquiet hlocked hfront (by rw [Lasts]; omega)

theorem releasedAt_iff {delay : BitVec 32} (hdelay : m.unlockDelay = delay.toInt) (hpos : delay ≠ 0)
    (hrun : (ops.foldlM (lockExec cfg) m).isSome) :
    ReleasedAt cfg m delay.toNat ops ↔ delay.toNat < 2 ^ 31 ∨ preCycles ops < delay.toNat := by
  have hpos' : delay.toNat ≠ 0 := fun h => hpos (BitVec.eq_of_toNat_eq h)
  rw [BitVec.toInt_eq_toNat_cond] at hdelay
  have hlasts {n : ℕ} (hn : n < delay.toNat ∨ 2 ^ 31 ≤ delay.toNat) : Lasts m.unlockDelay n := by
    rw [Lasts, hdelay]
    split <;> omega
  constructor
  · intro hreleased
    by_contra! hover
    obtain ⟨front, hfront, hk⟩ := exists_preCycle
      (by omega : delay.toNat - 1 < preCycles ops)
    obtain ⟨m', hm'⟩ := exists_of_prefix hrun hfront
    have hheld := locked_of_lasts hquiet hlocked hfront (hlasts (.inr hover.1)) hm'
    rw [hreleased.2 _ _ hfront (by omega) hm'] at hheld
    cases hheld
  · intro h
    refine ⟨fun front m' hfront hk => locked_of_lasts hquiet hlocked hfront (hlasts (.inl hk)),
      fun front m' hfront hk hm' => ?_⟩
    have hle : preCycles (front ++ [LockOp.preCycle]) ≤ preCycles ops := hfront.sublist.count_le _
    rw [preCycles, List.count_append] at hle
    change preCycles front + 1 ≤ _ at hle
    have hlt : 2 * delay.toNat < 2 ^ 32 := by omega
    rw [if_pos hlt] at hdelay
    exact run_released (fun op hop => hquiet op (hfront.subset (List.mem_append_left _ hop)))
      hlocked (by omega) (by omega) hm'

end Quiet

/-- A lock that is taken while the memory is not locked stays until it is unlocked exactly if no
countdown is left from before, or the countdown is not over. A delayed unlock releases the lock at
the right cycle exactly if the delay fits a signed number, or there are not as many cycles. -/
theorem lock_ownership_iff (hquiet : ∀ op ∈ ops, op.isUnlock = false) :
    (∀ iid, m.locked = false → (ops.foldlM (lockExec cfg) (m.lockAction iid)).isSome →
      (HeldThrough cfg (m.lockAction iid) ops ↔ Lasts m.unlockDelay (preCycles ops))) ∧
    ∀ delay : BitVec 32, delay ≠ 0 → m.locked = true →
      (ops.foldlM (lockExec cfg) (m.unlockAfter delay)).isSome →
      (ReleasedAt cfg (m.unlockAfter delay) delay.toNat ops ↔
        delay.toNat < 2 ^ 31 ∨ preCycles ops < delay.toNat) := by
  refine ⟨fun iid _ hrun => heldThrough_iff hquiet rfl hrun, fun delay hdelay hlocked hrun => ?_⟩
  have hafter : m.unlockAfter delay = { m with unlockDelay := delay.toInt } :=
    if_pos ⟨hdelay, hlocked⟩
  rw [hafter] at hrun ⊢
  exact @releasedAt_iff cfg { m with unlockDelay := delay.toInt } ops hquiet hlocked delay rfl
    hdelay hrun

/-- A memory without requests. -/
def idleMemory : Memory := { currTime := 0, ports := [] }

def idleConfig : MemoryConfig := ⟨false, 0, 1, 1⟩

theorem lock_kept_two_cycles :
    HeldThrough idleConfig (idleMemory.lockAction 7) [.preCycle, .lock 7, .preCycle] ∧
      ReleasedAt idleConfig ((idleMemory.lockAction 7).unlockAfter 2) 2
        [.preCycle, .lock 7, .preCycle] :=
  ⟨((@lock_ownership_iff idleConfig idleMemory [.preCycle, .lock 7, .preCycle]
      (by decide)).1 7 rfl (by decide)).mpr (.inl (by decide)),
    ((@lock_ownership_iff idleConfig (idleMemory.lockAction 7) [.preCycle, .lock 7, .preCycle]
      (by decide)).2 2 (by decide) rfl (by decide)).mpr (.inl (by decide))⟩

/-- Instruction 1 locks the memory, unlocks it with a delay of three cycles and then at once.
Instruction 2 locks it, and the old countdown releases this lock in the third cycle. -/
theorem stale_countdown_releases :
    (([.lock 1, .unlockAfter 1 3, .unlock 1, .lock 2, .preCycle, .preCycle].foldlM
        (lockExec idleConfig) idleMemory).map fun m => (m.locked, m.locker)) = some (true, 2) ∧
      (([.lock 1, .unlockAfter 1 3, .unlock 1, .lock 2, .preCycle, .preCycle, .preCycle].foldlM
        (lockExec idleConfig) idleMemory).map fun m => (m.locked, m.locker)) = some (false, 2) := by
  decide

end Memory

end Adl.Uadl
