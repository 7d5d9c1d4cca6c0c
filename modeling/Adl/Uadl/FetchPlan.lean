import Adl.Math.Mask
import Adl.Uadl.Fetch

/-!
# What a fetch asks for and brings

A fetch starts at or before the next address, and its front padding covers the bytes before that
address. A branch that is predicted taken ends inside of the wanted bytes. This needs that effective
addresses are not larger than the addresses that are masked, and that predicted branches do not run
over the end of the address space.
-/

namespace Adl.Uadl

variable {μ : Type*}

/-- Fetch sizes are positive, and the first one is the largest. The number of entries is checked at
construction. -/
structure FetchConfig.Valid (cfg : FetchConfig) : Prop where
  nonempty : cfg.fetchSizes ≠ []
  pos : ∀ s ∈ cfg.fetchSizes, 0 < s
  le : ∀ s ∈ cfg.fetchSizes, s ≤ cfg.fetchSize₀
  lt : cfg.fetchSize₀ < 2 ^ 32
  bpStep_pos : 0 < cfg.bpStep
  nEntries_lt : cfg.nEntries < numInstrBufEntries

/-- Masked addresses are not larger, and predicted branches have a size and do not wrap around. -/
structure FetchEnv.Lawful (env : FetchEnv μ) : Prop where
  ea_le : ∀ m a, (env.ea m a).toNat ≤ a.toNat
  predict_pos : ∀ m a target size m',
    env.branchPredict m a = (some (target, size), m') → 0 < size.toNat
  predict_lt : ∀ m a target size m',
    env.branchPredict m a = (some (target, size), m') → a.toNat + size.toNat < 2 ^ 64

namespace FetchConfig

variable {cfg : FetchConfig}

theorem fetchSize₀_mem (h : cfg.Valid) : cfg.fetchSize₀ ∈ cfg.fetchSizes := by
  rw [fetchSize₀]
  cases hsizes : cfg.fetchSizes with
  | nil => exact absurd hsizes h.nonempty
  | cons s rest => exact List.mem_cons_self

theorem fetchSize₀_pos (h : cfg.Valid) : 0 < cfg.fetchSize₀ := h.pos _ (fetchSize₀_mem h)

theorem addrMask_toNat (h : cfg.Valid) : cfg.addrMask.toNat = cfg.fetchSize₀ - 1 := by
  have hpos := fetchSize₀_pos h
  have hlt := h.lt
  rw [addrMask, BitVec.toNat_sub, BitVec.toNat_ofNat]
  change (2 ^ 64 - 1 + cfg.fetchSize₀ % 2 ^ 64) % 2 ^ 64 = _
  omega

theorem mem_addrFetchSizes (h : cfg.Valid) {s : ℕ} (hs : s ∈ cfg.addrFetchSizes) :
    s = 0 ∨ s ∈ cfg.fetchSizes := by
  have hfold (sizes masks : List ℕ) (hsizes : ∀ s ∈ sizes, s ∈ cfg.fetchSizes)
      (hmasks : ∀ s ∈ masks, s = 0 ∨ s ∈ cfg.fetchSizes) :
      ∀ s ∈ sizes.foldl (fun masks fs => masks.mapIdx fun j m =>
        if m = 0 ∧ fs ≤ j ∧ fs ∣ j then fs else m) masks, s = 0 ∨ s ∈ cfg.fetchSizes := by
    induction sizes generalizing masks with
    | nil => exact hmasks
    | cons fs rest ih =>
      refine ih _ (fun s hs => hsizes s (List.mem_cons_of_mem _ hs)) fun s hs => ?_
      obtain ⟨i, hi, rfl⟩ := List.mem_mapIdx.mp hs
      split
      · exact .inr (hsizes fs List.mem_cons_self)
      · exact hmasks _ (List.getElem_mem hi)
  refine hfold _ _ (fun s hs => List.mem_of_mem_tail hs) (fun s hs => ?_) s hs
  rcases List.mem_cons.mp hs with rfl | hs
  · exact .inr (fetchSize₀_mem h)
  · exact .inl (List.eq_of_mem_replicate hs)

theorem reachingSize_spec (h : cfg.Valid) {distance : ℕ} (hd : distance ≤ cfg.fetchSize₀) :
    cfg.reachingSize distance ∈ cfg.fetchSizes ∧ distance ≤ cfg.reachingSize distance := by
  rw [reachingSize]
  cases hfind : cfg.fetchSizes.reverse.find? (distance ≤ ·) with
  | none =>
    have hnone := List.find?_eq_none.mp hfind _ (List.mem_reverse.mpr (fetchSize₀_mem h))
    simp [hd] at hnone
  | some s =>
    have hs := List.find?_some hfind
    exact ⟨List.mem_reverse.mp (List.mem_of_find?_eq_some hfind), by simpa using hs⟩

end FetchConfig

namespace FetchUnit

variable {cfg : FetchConfig} {env : FetchEnv μ} {u : FetchUnit μ}

def Plan.start (p : Plan) : Addr := p.addr + p.frontPadSize.setWidth 64

/-! ### Front padding -/

theorem block_spec (h : cfg.Valid) (a : Addr) :
    (a &&& cfg.addrMask).toNat < cfg.fetchSize₀ ∧
      (a &&& cfg.addrMask).toNat + (a &&& ~~~cfg.addrMask).toNat = a.toNat ∧
      ((a &&& ~~~cfg.addrMask) + BitVec.ofNat 64 cfg.fetchSize₀ - a).toNat =
        cfg.fetchSize₀ - (a &&& cfg.addrMask).toNat := by
  have hsum := Math.toNat_and_add_toNat_and_not a cfg.addrMask
  have hle : (a &&& cfg.addrMask).toNat ≤ cfg.addrMask.toNat := by
    rw [BitVec.toNat_and]
    exact Nat.and_le_right
  have hpos := FetchConfig.fetchSize₀_pos h
  have hlt := h.lt
  have ha := a.isLt
  rw [FetchConfig.addrMask_toNat h] at hle
  refine ⟨by omega, hsum, ?_⟩
  rw [BitVec.toNat_sub, BitVec.toNat_add, BitVec.toNat_ofNat]
  omega

structure Plan.Ok (cfg : FetchConfig) (a : Addr) (p : Plan) : Prop where
  size_mem : p.fetchSize ∈ cfg.fetchSizes
  front_lt : p.frontPadSize.toNat < p.fetchSize
  start_le : p.addr.toNat + p.frontPadSize.toNat ≤ a.toNat

theorem Plan.Ok.start_toNat {a : Addr} {p : Plan} (h : p.Ok cfg a) :
    p.start.toNat = p.addr.toNat + p.frontPadSize.toNat := by
  have ha := a.isLt
  have hle := h.start_le
  rw [Plan.start, BitVec.toNat_add, BitVec.toNat_setWidth]
  omega

variable {m : μ} {a : Addr} {p : Plan} {r : FetchRequest} {u' : FetchUnit μ} {n : ℕ}

theorem sub_pad_toNat {pad : ℕ} (hpad : pad ≤ (a &&& cfg.addrMask).toNat) :
    (a - BitVec.ofNat 64 pad).toNat = a.toNat - pad := by
  have hle : (a &&& cfg.addrMask).toNat ≤ a.toNat := by
    rw [BitVec.toNat_and]
    exact Nat.and_le_left
  have ha := a.isLt
  rw [BitVec.toNat_sub, BitVec.toNat_ofNat]
  omega

theorem block_sub {base : Addr} {offset blockSize size : ℕ} (hsum : offset + base.toNat = a.toNat)
    (hoffset : offset < blockSize) (hle : size ≤ blockSize) (hreach : blockSize - offset ≤ size)
    (hlt : blockSize < 2 ^ 32) :
    base + BitVec.ofNat 64 blockSize - BitVec.ofNat 64 size =
      a - BitVec.ofNat 64 (size - (blockSize - offset)) := by
  have ha := a.isLt
  apply BitVec.eq_of_toNat_eq
  rw [BitVec.toNat_sub, BitVec.toNat_sub, BitVec.toNat_ofNat, BitVec.toNat_ofNat,
    BitVec.toNat_add, BitVec.toNat_ofNat]
  omega

theorem overfetch_eq (h : cfg.Valid) :
    ∃ fetchSize pad, overfetch cfg env m a =
        ⟨env.ea m (a - BitVec.ofNat 64 pad), fetchSize, BitVec.ofNat 32 pad, true⟩ ∧
      fetchSize ∈ cfg.fetchSizes ∧ pad < fetchSize ∧ pad ≤ (a &&& cfg.addrMask).toNat ∧
      pad + cfg.fetchSize₀ = fetchSize + (a &&& cfg.addrMask).toNat := by
  obtain ⟨hoffset, hsum, hdistance⟩ := block_spec h a
  have hlt := h.lt
  have ha := a.isLt
  rw [overfetch]
  generalize hnext : (a &&& ~~~cfg.addrMask) + BitVec.ofNat 64 cfg.fetchSize₀ = nextAddr
    at hdistance
  have hd : ((nextAddr - a).setWidth 32).toNat =
      cfg.fetchSize₀ - (a &&& cfg.addrMask).toNat := by
    rw [BitVec.toNat_setWidth, hdistance]
    omega
  have hreach := FetchConfig.reachingSize_spec h
    (by omega : ((nextAddr - a).setWidth 32).toNat ≤ cfg.fetchSize₀)
  generalize (nextAddr - a).setWidth 32 = distance at hd hreach
  generalize cfg.reachingSize distance.toNat = fetchSize at hreach
  obtain ⟨hmem, hreach⟩ := hreach
  have hle := h.le _ hmem
  refine ⟨fetchSize, fetchSize - distance.toNat, ?_, hmem, by omega, by omega, by omega⟩
  have haddr : nextAddr - BitVec.ofNat 64 fetchSize =
      a - BitVec.ofNat 64 (fetchSize - distance.toNat) := by
    rw [← hnext, hd, block_sub hsum hoffset hle (hd ▸ hreach) hlt]
  have hpad : BitVec.ofNat 32 fetchSize - distance =
      BitVec.ofNat 32 (fetchSize - distance.toNat) := by
    apply BitVec.eq_of_toNat_eq
    rw [BitVec.toNat_sub, BitVec.toNat_ofNat, BitVec.toNat_ofNat]
    omega
  rw [haddr, hpad]

theorem fetchBlock_eq (h : cfg.Valid) :
    fetchBlock cfg a = ⟨a - BitVec.ofNat 64 (a &&& cfg.addrMask).toNat, cfg.fetchSize₀,
      BitVec.ofNat 32 (a &&& cfg.addrMask).toNat, true⟩ := by
  obtain ⟨hoffset, hsum, -⟩ := block_spec h a
  have hlt := h.lt
  have ha := a.isLt
  rw [fetchBlock]
  congr 1
  · apply BitVec.eq_of_toNat_eq
    rw [sub_pad_toNat le_rfl]
    omega
  · apply BitVec.eq_of_toNat_eq
    rw [BitVec.toNat_setWidth, BitVec.toNat_sub, BitVec.toNat_ofNat]
    omega

/-- A fetch has a padding and starts this far before the next address, up to the mask of effective
addresses. If there is a padding, the fetch ends where the block ends. -/
theorem plan_eq (h : cfg.Valid) :
    ∃ pad, (u.plan cfg env).frontPadSize = BitVec.ofNat 32 pad ∧
      (u.plan cfg env).fetchSize ∈ cfg.fetchSizes ∧ pad < (u.plan cfg env).fetchSize ∧
      pad ≤ (u.nextFetchAddr &&& cfg.addrMask).toNat ∧
      (pad = 0 ∨ pad + cfg.fetchSize₀ =
        (u.plan cfg env).fetchSize + (u.nextFetchAddr &&& cfg.addrMask).toNat) ∧
      ((u.plan cfg env).addr = u.nextFetchAddr - BitVec.ofNat 64 pad ∨
        (u.plan cfg env).addr = env.ea u.env (u.nextFetchAddr - BitVec.ofNat 64 pad)) := by
  have hpos := FetchConfig.fetchSize₀_pos h
  have hmem := FetchConfig.fetchSize₀_mem h
  rw [plan]
  dsimp only
  split
  · exact ⟨0, rfl, hmem, hpos, Nat.zero_le _, .inl rfl, .inl (by simp)⟩
  split
  · split
    case isTrue hne =>
      -- an aligned fetch
      rw [List.getD_eq_getElem?_getD] at hne ⊢
      cases hget : cfg.addrFetchSizes[(u.nextFetchAddr &&& cfg.addrMask).toNat]? with
      | none =>
        rw [hget] at hne
        exact absurd rfl hne
      | some s =>
        rw [hget] at hne
        have hsize := (FetchConfig.mem_addrFetchSizes h
          (List.mem_of_getElem? hget)).resolve_left hne
        exact ⟨0, rfl, hsize, h.pos s hsize, Nat.zero_le _, .inl rfl, .inl (by simp)⟩
    case isFalse =>
      obtain ⟨fetchSize, pad, heq, hsize, hlt, hle, hend⟩ :=
        @overfetch_eq _ cfg env u.env u.nextFetchAddr h
      rw [heq]
      exact ⟨pad, rfl, hsize, hlt, hle, .inr hend, .inr rfl⟩
  · rw [fetchBlock_eq h]
    exact ⟨_, rfl, hmem, (block_spec h u.nextFetchAddr).1, le_rfl, .inr (Nat.add_comm _ _),
      .inl rfl⟩

theorem dvd_pad (h : cfg.Valid) {k : ℕ} (hentry : cfg.entrySize = 2 ^ k)
    (hsizes : ∀ s ∈ cfg.fetchSizes, cfg.entrySize ∣ s) (ha : cfg.entrySize ∣ a.toNat) {pad size : ℕ}
    (hsize : size ∈ cfg.fetchSizes)
    (hend : pad = 0 ∨ pad + cfg.fetchSize₀ = size + (a &&& cfg.addrMask).toNat) :
    cfg.entrySize ∣ pad := by
  have hblock := hsizes _ (FetchConfig.fetchSize₀_mem h)
  have hoffset : cfg.entrySize ∣ (a &&& cfg.addrMask).toNat := by
    rw [hentry] at ha ⊢
    exact Math.two_pow_dvd_and ha _
  rcases hend with rfl | hend
  · exact dvd_zero _
  · exact (Nat.dvd_add_left hblock).mp (hend ▸ Nat.dvd_add (hsizes _ hsize) hoffset)

theorem plan_ok (h : cfg.Valid) (henv : env.Lawful) :
    (u.plan cfg env).Ok cfg u.nextFetchAddr := by
  obtain ⟨pad, hpad, hsize, hlt, hle, -, haddr⟩ := @plan_eq _ cfg env u h
  have hsub := sub_pad_toNat hle
  have hle₀ := h.le _ hsize
  have hlt₀ := h.lt
  have hfront : (u.plan cfg env).frontPadSize.toNat = pad := by
    rw [hpad, BitVec.toNat_ofNat]
    omega
  have hstart : (u.plan cfg env).addr.toNat ≤ u.nextFetchAddr.toNat - pad := by
    rcases haddr with haddr | haddr
    · rw [haddr, hsub]
    · rw [haddr]
      exact (henv.ea_le _ _).trans hsub.le
  have hoffset : (u.nextFetchAddr &&& cfg.addrMask).toNat ≤ u.nextFetchAddr.toNat := by
    rw [BitVec.toNat_and]
    exact Nat.and_le_left
  exact ⟨hsize, by omega, by omega⟩

/-- The addresses of a block up to `a` are effective addresses. -/
def Effective (cfg : FetchConfig) (env : FetchEnv μ) (a : Addr) : Prop :=
  ∀ m pad, pad ≤ (a &&& cfg.addrMask).toNat →
    env.ea m (a - BitVec.ofNat 64 pad) = a - BitVec.ofNat 64 pad

theorem plan_start (h : cfg.Valid) (heff : Effective cfg env u.nextFetchAddr) :
    (u.plan cfg env).start = u.nextFetchAddr := by
  obtain ⟨pad, hpad, hsize, hlt, hle, -, haddr⟩ := @plan_eq _ cfg env u h
  have hle₀ := h.le _ hsize
  have hlt₀ := h.lt
  have haddr' : (u.plan cfg env).addr = u.nextFetchAddr - BitVec.ofNat 64 pad :=
    haddr.elim id fun haddr => haddr.trans (heff _ _ hle)
  have hwidth : (BitVec.ofNat 32 pad).setWidth 64 = BitVec.ofNat 64 pad := by
    apply BitVec.eq_of_toNat_eq
    rw [BitVec.toNat_setWidth, BitVec.toNat_ofNat, BitVec.toNat_ofNat]
    omega
  rw [Plan.start, haddr', hpad, hwidth, BitVec.sub_add_cancel]

/-! ### Rear padding -/

/-- The end of a fetch. -/
def Plan.end (p : Plan) : Addr := p.addr + BitVec.ofNat 64 p.fetchSize

/-- An answer of the predictor. -/
def Predicted (env : FetchEnv μ) (info : PredTakenInfo) : Prop :=
  ∃ m m', env.branchPredict m info.addr = (some (info.target, info.size), m')

/-- The branch at which a fetch ends: an old one that was not complete, or one that is predicted for
the wanted bytes. -/
def Branch (cfg : FetchConfig) (env : FetchEnv μ) (u : FetchUnit μ) (p : Plan)
    (info : PredTakenInfo) : Prop :=
  (u.incompletePredTakenInstr = true ∧ info = u.lastPred) ∨
    ∃ k, k * cfg.bpStep < p.fetchSize - p.frontPadSize.toNat ∧ p.start.toNat < p.end.toNat ∧
      info.addr = p.start + BitVec.ofNat 64 (k * cfg.bpStep) ∧ Predicted env info

/-- A branch that continues in the next fetch ends behind the next address. -/
def Ahead (cfg : FetchConfig) (u : FetchUnit μ) : Prop :=
  u.incompletePredTakenInstr = true →
    cfg.hasPredictor = true ∧ u.nextFetchAddr.toNat < u.lastPred.end.toNat

theorem predictLoop_some {m m' : μ} {info : PredTakenInfo}
    (h : predictLoop cfg env n a m = (some info, m')) :
    ∃ k < n, info.addr = a + BitVec.ofNat 64 (k * cfg.bpStep) ∧ Predicted env info := by
  induction n generalizing a m with
  | zero => cases h
  | succ n ih =>
    rw [predictLoop] at h
    split at h
    case h_1 target size m₁ hpredict =>
      cases h
      exact ⟨0, Nat.succ_pos n, by simp, m, m', hpredict⟩
    case h_2 m₁ hpredict =>
      obtain ⟨k, hk, haddr, hpredicted⟩ := ih h
      refine ⟨k + 1, Nat.succ_lt_succ hk, ?_, hpredicted⟩
      rw [haddr, BitVec.add_assoc, ← BitVec.ofNat_add, Nat.succ_mul, Nat.add_comm]

theorem mul_lt_of_lt_predictions (h : cfg.Valid) (hp : p.Ok cfg a) {k : ℕ}
    (hk : k < predictions cfg p) :
    k * cfg.bpStep < p.fetchSize - p.frontPadSize.toNat ∧ p.start.toNat < p.end.toNat := by
  rw [predictions] at hk
  split at hk
  case isFalse => cases hk
  case isTrue hlt =>
    refine ⟨?_, hlt⟩
    have hfront := hp.front_lt
    have hmul := (Nat.le_div_iff_mul_le h.bpStep_pos).mp hk
    rw [Nat.succ_mul] at hmul
    omega

theorem Plan.Ok.branch_toNat (h : cfg.Valid) (hp : p.Ok cfg a)
    (hn : n < p.fetchSize - p.frontPadSize.toNat) (hlt : p.start.toNat < p.end.toNat) :
    (p.start + BitVec.ofNat 64 n).toNat = p.start.toNat + n := by
  have hstart := hp.start_toNat
  have hsize := h.le _ hp.size_mem
  have hlt₀ := h.lt
  have ha := p.addr.isLt
  rw [Plan.end, BitVec.toNat_add, BitVec.toNat_ofNat] at hlt
  rw [BitVec.toNat_add, BitVec.toNat_ofNat]
  omega

theorem branch_end (h : cfg.Valid) (henv : env.Lawful) (hp : p.Ok cfg u.nextFetchAddr)
    (hahead : u.Ahead cfg) {info : PredTakenInfo} (hbranch : Branch cfg env u p info) :
    p.start.toNat < info.end.toNat := by
  have hstart := hp.start_toNat
  obtain ⟨hincomplete, rfl⟩ | ⟨k, hk, hlt, haddr, m, m', hpredict⟩ := hbranch
  · have hle := hp.start_le
    have hend := (hahead hincomplete).2
    omega
  · have hpos := henv.predict_pos _ _ _ _ _ hpredict
    have hsum := henv.predict_lt _ _ _ _ _ hpredict
    have hinfo : info.end.toNat = info.addr.toNat + info.size.toNat := by
      rw [PredTakenInfo.end, BitVec.toNat_add, BitVec.toNat_setWidth]
      omega
    have haddr' := hp.branch_toNat h hk hlt
    rw [← haddr] at haddr'
    omega

/-- The fetch goes on behind this one, or at the target of a branch in it. -/
def Continues (cfg : FetchConfig) (env : FetchEnv μ) (u : FetchUnit μ) (p : Plan)
    (rear : BitVec 32) (last : PredTakenInfo) (incomplete : Bool) (next : Addr) : Prop :=
  (rear = 0 ∧ (∃ m, next = env.ea m p.end) ∧
    (incomplete = true → cfg.hasPredictor = true ∧ p.end.toNat < last.end.toNat ∧
      Branch cfg env u p last)) ∨
  (rear = (p.end - last.end).setWidth 32 ∧ last.end.toNat ≤ p.end.toNat ∧ incomplete = false ∧
    next = last.target ∧ Branch cfg env u p last)

theorem predict_cases (h : cfg.Valid) (hp : p.Ok cfg a) {taken : Bool}
    (hpredict : u.predict cfg env p = (taken, u')) :
    ∃ m preds last, u' = { u with env := m, predTakenInstrs := preds, lastPred := last } ∧
      (taken = true → Branch cfg env u p last) ∧ (taken = false → last = u.lastPred) := by
  rw [predict] at hpredict
  split at hpredict
  · cases hpredict
    exact ⟨_, _, _, rfl, nofun, fun _ => rfl⟩
  · split at hpredict
    case h_1 info m hloop =>
      cases hpredict
      refine ⟨_, _, _, rfl, fun _ => ?_, nofun⟩
      obtain ⟨k, hk, haddr, hpredicted⟩ := predictLoop_some hloop
      obtain ⟨hlt, hwrap⟩ := mul_lt_of_lt_predictions h hp hk
      exact .inr ⟨k, hlt, hwrap, haddr, hpredicted⟩
    case h_2 m hloop =>
      cases hpredict
      exact ⟨_, _, _, rfl, nofun, fun _ => rfl⟩

theorem nextAddr_cases (h : cfg.Valid) (hp : p.Ok cfg a) (hahead : u.Ahead cfg) {rear : BitVec 32}
    (hnext : nextAddr cfg env u p = (rear, u')) :
    ∃ m preds last incomplete next aligned,
      u' = { u with
        env := m, predTakenInstrs := preds, lastPred := last,
        incompletePredTakenInstr := incomplete, nextFetchAddr := next,
        alignedFetch := aligned } ∧ Continues cfg env u p rear last incomplete next := by
  rw [nextAddr] at hnext
  split at hnext
  case isFalse hpredictor =>
    cases hnext
    exact ⟨_, _, _, _, _, _, rfl, .inl ⟨rfl, ⟨_, rfl⟩, fun hi =>
      absurd (hahead hi).1 hpredictor⟩⟩
  case isTrue hpredictor =>
    rcases hpredict : u.predict cfg env p with ⟨taken, u₁⟩
    obtain ⟨m, preds, last, rfl, htaken, hold⟩ := predict_cases h hp hpredict
    rw [hpredict] at hnext
    dsimp only at hnext
    split at hnext
    case isTrue hstop =>
      have hbranch : Branch cfg env u p last := by
        cases taken with
        | true => exact htaken rfl
        | false => exact .inl ⟨by simpa using hstop, hold rfl⟩
      split at hnext
      case isTrue hlt =>
        cases hnext
        exact ⟨_, _, _, _, _, _, rfl, .inl ⟨rfl, ⟨_, rfl⟩, fun _ => ⟨hpredictor, hlt, hbranch⟩⟩⟩
      case isFalse hlt =>
        cases hnext
        exact ⟨_, _, _, _, _, _, rfl, .inr ⟨rfl, Nat.le_of_not_lt hlt, rfl, rfl, hbranch⟩⟩
    case isFalse hgo =>
      cases hnext
      refine ⟨_, _, _, _, _, _, rfl, .inl ⟨rfl, ⟨_, rfl⟩, fun hi => ?_⟩⟩
      simp [hi] at hgo

/-- The bytes that a request brings are the wanted bytes up to the end of the fetch, or up to the
end of a branch. -/
theorem Continues.size (h : cfg.Valid) (henv : env.Lawful) (hp : p.Ok cfg u.nextFetchAddr)
    (hahead : u.Ahead cfg) (hsize : r.fetchSize = BitVec.ofNat 32 p.fetchSize)
    (hfront : r.frontPadSize = p.frontPadSize) {last : PredTakenInfo} {incomplete : Bool}
    {next : Addr} (hnext : Continues cfg env u p r.rearPadSize last incomplete next) :
    p.start.toNat + r.size.toNat = p.addr.toNat + p.fetchSize ∨
      (p.start.toNat + r.size.toNat = last.end.toNat ∧
        last.end.toNat ≤ p.addr.toNat + p.fetchSize ∧ Branch cfg env u p last) := by
  have hstart := hp.start_toNat
  have hfit := hp.front_lt
  have hle₀ := h.le _ hp.size_mem
  have hlt₀ := h.lt
  rw [FetchRequest.size, hsize, hfront]
  obtain ⟨hrear, -, -⟩ | ⟨hrear, hle, -, -, hbranch⟩ := hnext
  · refine .inl ?_
    rw [hrear, BitVec.toNat_sub, BitVec.toNat_sub, BitVec.toNat_ofNat]
    change _ + ((2 ^ 32 - 0 + _) % 2 ^ 32) = _
    omega
  · have hend := branch_end h henv hp hahead hbranch
    have ha := p.addr.isLt
    have hpend : p.end.toNat = p.addr.toNat + p.fetchSize := by
      rw [Plan.end, BitVec.toNat_add, BitVec.toNat_ofNat] at hle ⊢
      omega
    have hrear' : r.rearPadSize.toNat = p.addr.toNat + p.fetchSize - last.end.toNat := by
      rw [hrear, BitVec.toNat_setWidth, BitVec.toNat_sub]
      omega
    refine .inr ⟨?_, by omega, hbranch⟩
    rw [BitVec.toNat_sub, BitVec.toNat_sub, BitVec.toNat_ofNat]
    omega

theorem Continues.size_pos (h : cfg.Valid) (henv : env.Lawful) (hp : p.Ok cfg u.nextFetchAddr)
    (hahead : u.Ahead cfg) (hsize : r.fetchSize = BitVec.ofNat 32 p.fetchSize)
    (hfront : r.frontPadSize = p.frontPadSize) {last : PredTakenInfo} {incomplete : Bool}
    {next : Addr} (hnext : Continues cfg env u p r.rearPadSize last incomplete next) :
    0 < r.size.toNat := by
  have hstart := hp.start_toNat
  have hlt := hp.front_lt
  rcases hnext.size h henv hp hahead hsize hfront with hbytes | ⟨hbytes, -, hbranch⟩
  · omega
  · have hend := branch_end h henv hp hahead hbranch
    omega

/-- One call of `sendRequest`: the address translation fails, or a request is added. -/
theorem sendRequest_cases (h : cfg.Valid) (henv : env.Lawful) (hahead : u.Ahead cfg) {sent : Bool}
    (hsend : u.sendRequest cfg env = (sent, u')) :
    (sent = false ∧ ∃ m aligned,
      u' = { u with
        env := m, alignedFetch := aligned, nextFetchAddr := (u.plan cfg env).start }) ∨
    (sent = true ∧ ∃ r m preds last incomplete next aligned,
      u' = { u with
        env := m, predTakenInstrs := preds, lastPred := last,
        incompletePredTakenInstr := incomplete, nextFetchAddr := next, alignedFetch := aligned,
        pendingRequests := Math.ringPush numPendingRequests u.pendingRequests r,
        overrun := u.overrun || numPendingRequests ≤ u.pendingRequests.length + 1,
        currInstrBufSpace := u.currInstrBufSpace - r.size } ∧
      r.preempted = false ∧ r.ea = (u.plan cfg env).addr ∧
      r.fetchSize = BitVec.ofNat 32 (u.plan cfg env).fetchSize ∧
      r.frontPadSize = (u.plan cfg env).frontPadSize ∧
      Continues cfg env u (u.plan cfg env) r.rearPadSize last incomplete next) := by
  have hp : (u.plan cfg env).Ok cfg u.nextFetchAddr := plan_ok h henv
  rw [sendRequest] at hsend
  generalize u.plan cfg env = p at hp hsend
  dsimp only at hsend
  split at hsend
  case h_1 m htranslate =>
    -- without a translation nothing is sent
    cases hsend
    exact .inl ⟨rfl, _, _, rfl⟩
  case h_2 ra data m htranslate =>
    rcases hnext : nextAddr cfg env { u with
      alignedFetch := p.alignedFetch
      env := (env.sendFetchRequest m p.addr ra p.fetchSize).2 } p with ⟨rear, u₁⟩
    rw [hnext] at hsend
    cases hsend
    obtain ⟨m', preds, last, incomplete, next, aligned, rfl, hcontinues⟩ :=
      nextAddr_cases h hp (by exact hahead) hnext
    exact .inr ⟨rfl, _, _, _, _, _, _, _, rfl, rfl, rfl, rfl, rfl, hcontinues⟩

/-! ### Received data -/

theorem addEntry_of_overrun {e : InstrBufEntry} (h : (u.addEntry e).overrun = false) :
    u.overrun = false ∧ u.instrBuf.length + 1 < numInstrBufEntries := by
  rw [addEntry, Bool.or_eq_false_iff, decide_eq_false_iff_not, Nat.not_le] at h
  exact h

theorem storeEntry_eq {ea ra : Addr} {data : ℕ → Byte} :
    ∃ e preds, u.storeEntry cfg ea ra data =
        { u.addEntry e with predTakenInstrs := preds } ∧
      e.ea = ea ∧ (cfg.hasPredictor = false → e.predTaken = false) := by
  rw [storeEntry]
  split
  case h_1 hpredictor _ =>
    exact ⟨_, _, rfl, rfl, fun hnone => absurd (hnone.symm.trans hpredictor) (by decide)⟩
  case h_2 => exact ⟨_, _, rfl, rfl, fun _ => rfl⟩

/-- What `n` entries from address `ea` on do to the buffer. If it is not overrun, they follow the
others and each other. Without a predictor none of them is predicted taken. -/
structure Stored (cfg : FetchConfig) (u : FetchUnit μ) (ea : Addr) (n : ℕ)
    (buf : List InstrBufEntry) (overrun : Bool) : Prop where
  plain : cfg.hasPredictor = false → ∀ e ∈ buf, e ∈ u.instrBuf ∨ e.predTaken = false
  room : u.instrBuf.length + n < numInstrBufEntries → overrun = u.overrun
  entries : overrun = false → u.overrun = false ∧ ∃ entries, buf = u.instrBuf ++ entries ∧
    entries.length = n ∧
    ∀ i e, entries[i]? = some e → e.ea = ea + BitVec.ofNat 64 (i * cfg.entrySize)

theorem Stored.cons {e : InstrBufEntry} {preds : List PredTakenInfo} {buf : List InstrBufEntry}
    {overrun : Bool}
    (h : Stored cfg { u.addEntry e with predTakenInstrs := preds }
      (e.ea + BitVec.ofNat 64 cfg.entrySize) n buf overrun)
    (he : cfg.hasPredictor = false → e.predTaken = false) :
    Stored cfg u e.ea (n + 1) buf overrun where
  plain hplain x hx := by
    rcases h.plain hplain x hx with hx | hx
    · exact Math.forall_mem_ringPush (p := fun a => a ∈ u.instrBuf ∨ a.predTaken = false)
        (fun a ha => .inl ha) (.inr (he hplain)) x hx
    · exact .inr hx
  room hroom := by
    have hone : u.instrBuf.length + 1 < numInstrBufEntries := by omega
    have hlength : (u.addEntry e).instrBuf.length = u.instrBuf.length + 1 := by
      rw [addEntry, Math.ringPush_of_lt hone, List.length_append, List.length_singleton]
    rw [h.room (by dsimp only; omega)]
    simp [addEntry, hone]
  entries hover := by
    obtain ⟨hfirst, entries, rfl, hlength, heas⟩ := h.entries hover
    obtain ⟨hu, hone⟩ := @addEntry_of_overrun _ u e hfirst
    refine ⟨hu, e :: entries, ?_, by rw [List.length_cons, hlength], fun i x hx => ?_⟩
    · rw [addEntry, Math.ringPush_of_lt hone, List.append_assoc, List.singleton_append]
    · cases i with
      | zero =>
        obtain rfl := Option.some.inj hx
        simp
      | succ i =>
        rw [heas i x hx, BitVec.add_assoc, ← BitVec.ofNat_add, Nat.succ_mul, Nat.add_comm]

theorem storeLoop_eq {n position : ℕ} {ea ra : Addr} {data : ℕ → Byte} :
    ∃ buf preds overrun, storeLoop cfg data n ea ra position u =
        { u with instrBuf := buf, predTakenInstrs := preds, overrun := overrun } ∧
      Stored cfg u ea n buf overrun := by
  induction n generalizing ea ra position u with
  | zero =>
    exact ⟨_, _, _, rfl, fun _ _ he => .inl he, fun _ => rfl, fun hu => ⟨hu, [], by simp⟩⟩
  | succ n ih =>
    obtain ⟨e, preds, hstore, rfl, hplain⟩ :=
      @storeEntry_eq _ cfg u ea ra fun j => data (position + j)
    obtain ⟨buf, preds', overrun, hloop, hstored⟩ := @ih { u.addEntry e with
      predTakenInstrs := preds } (position + cfg.entrySize) (e.ea + BitVec.ofNat 64 cfg.entrySize)
      (ra + BitVec.ofNat 64 cfg.entrySize)
    refine ⟨buf, preds', overrun, ?_, hstored.cons hplain⟩
    rw [storeLoop, hstore, hloop]
    rfl

/-- Rounding up adds no entry if the size is a multiple of the entry size. -/
theorem entriesOf_eq (hpos : 0 < cfg.entrySize) (hn : r.size.toNat = cfg.entrySize * n) :
    entriesOf cfg r = n := by
  rw [entriesOf, hn, Nat.add_sub_assoc (show 1 ≤ cfg.entrySize from hpos), Nat.mul_add_div hpos,
    Nat.div_eq_of_lt (Nat.sub_lt hpos Nat.one_pos), Nat.add_zero]

/-- A request is received from the first byte that is wanted on. -/
theorem receive_eq {rest : List FetchRequest} :
    ∃ buf preds overrun, u.receive cfg env r rest =
        { u with
          env := (env.read u.env r.id).2, instrBuf := buf, predTakenInstrs := preds,
          overrun := overrun, pendingRequests := rest } ∧
      Stored cfg u r.start (entriesOf cfg r) buf overrun := by
  rw [receive]
  generalize env.read u.env r.id = read
  obtain ⟨bytes, m⟩ := read
  dsimp only
  generalize (if !cfg.safeMode then bytes
    else if !cfg.issMemMode then env.fetchMemoryData m r.ra r.fetchSize.toNat
    else r.data) = data
  obtain ⟨buf, preds, overrun, hloop, hstored⟩ := @storeLoop_eq _ cfg { u with env := m }
    (entriesOf cfg r) r.frontPadSize.toNat (r.ea + r.frontPadSize.setWidth 64)
    (r.ra + r.frontPadSize.setWidth 64) data
  exact ⟨buf, preds, overrun, by rw [hloop], hstored.plain, hstored.room, hstored.entries⟩

/-! ### Targets of a flush -/

theorem findTarget_some {places : List (Addr × Addr)} {m m' : μ} {i : ℕ}
    (h : findTarget env a places m = (some i, m')) : ∃ ra, places[i]? = some (a, ra) := by
  induction places generalizing m m' i with
  | nil => cases h
  | cons place rest ih =>
    obtain ⟨ea, ra⟩ := place
    -- the target is behind this place
    have hrest {m : μ} (h : ((findTarget env a rest m).1.map (· + 1),
        (findTarget env a rest m).2) = (some i, m')) :
        ∃ ra', ((ea, ra) :: rest)[i]? = some (a, ra') := by
      obtain ⟨hfound, -⟩ := Prod.mk.inj h
      obtain ⟨k, hk, rfl⟩ := Option.map_eq_some_iff.mp hfound
      exact ih (Prod.ext hk rfl : findTarget env a rest m = (some k, (findTarget env a rest m).2))
    rw [findTarget] at h
    split at h
    case isTrue hea =>
      dsimp only at h
      split at h
      · cases h
        exact ⟨ra, by simp [hea]⟩
      · exact hrest h
    case isFalse => exact hrest h

end FetchUnit

end Adl.Uadl
