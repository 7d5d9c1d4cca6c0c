import Mathlib.Algebra.Order.BigOperators.Group.List
import Mathlib.Tactic.Ring
import Adl.Uadl.FetchTrack

/-!
# The space of the instruction buffer

The counter of free bytes always has the value that follows from the buffer and the requests, and
does not become negative. This holds if everything is a multiple of the entry size, a power of two:
addresses are aligned by masks. The memory must not serve requests that it has preempted, and
instructions must be decoded before they are removed.
-/

namespace Adl.Uadl

variable {μ : Type*}

/-! ### Reserved space -/

/-- The bytes that requests have reserved. -/
def reserved (requests : List FetchRequest) : BitVec 32 :=
  ((requests.filter (!·.preempted)).map (·.size)).sum

def booked (requests : List FetchRequest) : ℕ := (requests.map (·.size.toNat)).sum

section Reserved

variable {requests requests' : List FetchRequest} {r : FetchRequest}

@[simp] theorem reserved_append :
    reserved (requests ++ requests') = reserved requests + reserved requests' := by
  simp [reserved]

theorem reserved_singleton : reserved [r] = if r.preempted then 0 else r.size := by
  cases h : r.preempted <;> simp [reserved, h]

theorem reserved_of_forall (h : ∀ r ∈ requests, r.preempted = false) :
    reserved requests = (requests.map (·.size)).sum := by
  have hfilter : requests.filter (!·.preempted) = requests :=
    List.filter_eq_self.mpr fun r hr => by simp [h r hr]
  rw [reserved, hfilter]

@[simp] theorem booked_append :
    booked (requests ++ requests') = booked requests + booked requests' := by
  simp [booked]

@[simp] theorem booked_singleton : booked [r] = r.size.toNat := by
  simp [booked]

/-- Reserved bytes as a number. -/
theorem reserved_eq_ofNat :
    reserved requests = BitVec.ofNat 32 (booked (requests.filter (!·.preempted))) := by
  rw [reserved, booked]
  induction requests.filter (!·.preempted) with
  | nil => rfl
  | cons r rest ih => simp [ih, BitVec.ofNat_add]

theorem booked_filter_le {keep : FetchRequest → Bool} :
    booked (requests.filter keep) ≤ booked requests :=
  List.Sublist.sum_le_sum (List.filter_sublist.map _) fun _ _ => Nat.zero_le _

end Reserved

/-! ### The counter -/

/-- The counter has its value, everything fits, and at most the last request is preempted. -/
structure Spaced (cfg : FetchConfig) (space : BitVec 32) (used : ℕ)
    (requests : List FetchRequest) : Prop where
  space_eq : space = (BitVec.ofNat 32 cfg.nEntries - BitVec.ofNat 32 used) *
    BitVec.ofNat 32 cfg.entrySize - reserved requests
  fits : used * cfg.entrySize + booked requests ≤ cfg.nEntries * cfg.entrySize
  last : ∀ r ∈ requests.dropLast, r.preempted = false

namespace Spaced

variable {cfg : FetchConfig} {space : BitVec 32} {used : ℕ} {requests : List FetchRequest}

theorem toNat (h : Spaced cfg space used requests)
    (hsize : cfg.nEntries * cfg.entrySize < 2 ^ 31) :
    space.toNat + booked (requests.filter (!·.preempted)) + used * cfg.entrySize =
      cfg.nEntries * cfg.entrySize := by
  have hfits := h.fits
  have hle : booked (requests.filter (!·.preempted)) ≤ booked requests := booked_filter_le
  generalize hbooked : booked (requests.filter (!·.preempted)) = taken at hle
  have hspace : space = BitVec.ofNat 32 (cfg.nEntries * cfg.entrySize -
      used * cfg.entrySize - taken) := by
    have hsum : cfg.nEntries * cfg.entrySize =
        (cfg.nEntries * cfg.entrySize - used * cfg.entrySize - taken) +
          (used * cfg.entrySize + taken) := by omega
    have hbits := congrArg (BitVec.ofNat 32) hsum
    rw [BitVec.ofNat_add, BitVec.ofNat_add, BitVec.ofNat_mul, BitVec.ofNat_mul] at hbits
    rw [h.space_eq, reserved_eq_ofNat, hbooked, sub_mul, hbits]
    ring
  rw [hspace, BitVec.toNat_ofNat]
  omega

/-- Entries and requests are not more than the entries for which there is space. -/
theorem length_le (h : Spaced cfg space used requests) (hpos : 0 < cfg.entrySize)
    (hsizes : ∀ r ∈ requests, cfg.entrySize ≤ r.size.toNat) :
    used + requests.length ≤ cfg.nEntries := by
  have hbooked : requests.length * cfg.entrySize ≤ booked requests := by
    have hsum := List.card_nsmul_le_sum (requests.map (·.size.toNat)) cfg.entrySize
      (List.forall_mem_map.mpr hsizes)
    rwa [List.length_map, Nat.nsmul_eq_mul] at hsum
  have hfits := h.fits
  refine Nat.le_of_mul_le_mul_right ?_ hpos
  rw [Nat.add_mul]
  omega

/-- Entries are removed. -/
theorem shrink (h : Spaced cfg space used requests) {n : ℕ} (hn : n ≤ used) :
    Spaced cfg (space + BitVec.ofNat 32 n * BitVec.ofNat 32 cfg.entrySize) (used - n)
      requests where
  space_eq := by
    have hbits := congrArg (BitVec.ofNat 32) (Nat.sub_add_cancel hn)
    rw [BitVec.ofNat_add] at hbits
    rw [h.space_eq, ← hbits]
    ring
  fits := (Nat.add_le_add_right (Nat.mul_le_mul_right _ (Nat.sub_le used n)) _).trans h.fits
  last := h.last

theorem cancel {front rest : List FetchRequest} (h : Spaced cfg space used (front ++ rest))
    (hfront : ∀ r ∈ front, r.preempted = false) :
    Spaced cfg (space + (front.map (·.size)).sum) used rest where
  space_eq := by
    rw [h.space_eq, reserved_append, reserved_of_forall hfront]
    ring
  fits := by
    have hfits := h.fits
    rw [booked_append] at hfits
    omega
  last := by
    intro r hr
    apply h.last
    have hne : rest ≠ [] := by
      rintro rfl
      exact List.not_mem_nil hr
    rw [List.dropLast_append_of_ne_nil hne]
    exact List.mem_append_right _ hr

theorem cancelPending (h : Spaced cfg space used requests) :
    Spaced cfg (space + reserved requests) used [] where
  space_eq := by
    rw [h.space_eq]
    simp [reserved]
  fits := (Nat.le_add_right _ _).trans h.fits
  last := nofun

theorem receive {r : FetchRequest} {rest : List FetchRequest}
    (h : Spaced cfg space used (r :: rest)) (hr : r.preempted = false) {n : ℕ}
    (hn : r.size.toNat = n * cfg.entrySize) : Spaced cfg space (used + n) rest where
  space_eq := by
    have hsize : r.size = BitVec.ofNat 32 n * BitVec.ofNat 32 cfg.entrySize := by
      rw [← BitVec.ofNat_mul, ← hn, BitVec.ofNat_toNat, BitVec.setWidth_eq]
    rw [h.space_eq, ← List.singleton_append, reserved_append, reserved_singleton, hr, hsize,
      BitVec.ofNat_add]
    simp only [Bool.false_eq_true, ↓reduceIte]
    ring
  fits := by
    have hfits := h.fits
    rw [← List.singleton_append, booked_append, booked_singleton] at hfits
    rw [Nat.add_mul]
    omega
  last := by
    intro x hx
    apply h.last
    cases rest with
    | nil => exact absurd hx List.not_mem_nil
    | cons y rest => exact List.mem_cons_of_mem _ hx

/-- A request is sent that fits. -/
theorem send (h : Spaced cfg space used requests)
    (hsize : cfg.nEntries * cfg.entrySize < 2 ^ 31)
    (hactive : ∀ r ∈ requests, r.preempted = false) {r : FetchRequest} (hr : r.preempted = false)
    (hle : r.size.toNat ≤ space.toNat) : Spaced cfg (space - r.size) used (requests ++ [r]) where
  space_eq := by
    rw [h.space_eq, reserved_append, reserved_singleton, hr]
    simp only [Bool.false_eq_true, ↓reduceIte]
    ring
  fits := by
    have hspace := h.toNat hsize
    have hfilter : requests.filter (!·.preempted) = requests :=
      List.filter_eq_self.mpr fun r hr => by simp [hactive r hr]
    rw [hfilter] at hspace
    rw [booked_append, booked_singleton]
    omega
  last := by
    rw [List.dropLast_concat]
    exact hactive

theorem setLast {r r' : FetchRequest} (h : Spaced cfg space used (requests ++ [r]))
    (hsize : r'.size = r.size) :
    Spaced cfg (space + reserved [r] - reserved [r']) used (requests ++ [r']) where
  space_eq := by
    rw [h.space_eq, reserved_append, reserved_append]
    ring
  fits := by
    have hfits := h.fits
    rw [booked_append, booked_singleton] at hfits ⊢
    rw [hsize]
    exact hfits
  last := by
    have hlast := h.last
    rw [List.dropLast_concat] at hlast ⊢
    exact hlast

end Spaced

/-- The counter of a fetch unit. -/
def FetchUnit.Accounted (cfg : FetchConfig) (u : FetchUnit μ) : Prop :=
  Spaced cfg u.currInstrBufSpace u.instrBuf.length u.pendingRequests

theorem FetchUnit.Accounted.hasInstrSpace {cfg : FetchConfig} {u : FetchUnit μ}
    (h : u.Accounted cfg) (hsize : cfg.nEntries * cfg.entrySize < 2 ^ 31)
    (hmin : cfg.minFetchEntries = 0) :
    u.hasInstrSpace cfg =
      some (decide (BitVec.ofNat 32 cfg.fetchSize₀ ≤ u.currInstrBufSpace)) := by
  have hspace : u.computedSpace cfg = u.currInstrBufSpace := h.space_eq.symm
  have hmsb : u.currInstrBufSpace.msb = false := by
    have htoNat := h.toNat hsize
    rw [BitVec.msb_eq_false_iff_two_mul_lt]
    omega
  rw [FetchUnit.hasInstrSpace, if_neg (by simp [hmin]), hspace, hmsb, if_neg (by simp)]

/-! ### Multiples of the entry size -/

/-- Fetch sizes, addresses, and the sizes of branches are multiples of the entry size. -/
structure Multiples (cfg : FetchConfig) (env : FetchEnv μ) : Prop where
  fetchSize : ∀ s ∈ cfg.fetchSizes, cfg.entrySize ∣ s
  bpStep : cfg.entrySize ∣ cfg.bpStep
  ea : ∀ m a, cfg.entrySize ∣ a.toNat → cfg.entrySize ∣ (env.ea m a).toNat
  predict : ∀ info, FetchUnit.Predicted env info →
    cfg.entrySize ∣ info.target.toNat ∧ cfg.entrySize ∣ info.size.toNat

/-- Parameters and environments for which the counter is right. -/
structure Regular (cfg : FetchConfig) (env : FetchEnv μ) (k : ℕ) : Prop where
  valid : cfg.Valid
  lawful : env.Lawful
  multiples : Multiples cfg env
  entrySize : cfg.entrySize = 2 ^ k
  size_lt : cfg.nEntries * cfg.entrySize < 2 ^ 31
  minFetchEntries : cfg.minFetchEntries = 0

namespace Regular

variable {cfg : FetchConfig} {env : FetchEnv μ} {k : ℕ} (h : Regular cfg env k)

include h

theorem le : k ≤ 32 := by
  have hdvd := h.multiples.fetchSize _ (FetchConfig.fetchSize₀_mem h.valid)
  have hle := Nat.le_of_dvd (FetchConfig.fetchSize₀_pos h.valid) hdvd
  have hlt := h.valid.lt
  rw [h.entrySize] at hle
  exact ((Nat.pow_lt_pow_iff_right (by decide)).mp (hle.trans_lt hlt)).le

theorem dvd_add {a b : Addr} (ha : cfg.entrySize ∣ a.toNat) (hb : cfg.entrySize ∣ b.toNat) :
    cfg.entrySize ∣ (a + b).toNat := by
  rw [h.entrySize] at *
  exact Math.two_pow_dvd_add (h.le.trans (by decide)) ha hb

theorem dvd_ofNat {n : ℕ} (hn : cfg.entrySize ∣ n) :
    cfg.entrySize ∣ (BitVec.ofNat 64 n).toNat := by
  rw [h.entrySize] at *
  exact Math.two_pow_dvd_ofNat (h.le.trans (by decide)) hn

theorem dvd_add_setWidth {a : Addr} {size : BitVec 32} (ha : cfg.entrySize ∣ a.toNat)
    (hsize : cfg.entrySize ∣ size.toNat) : cfg.entrySize ∣ (a + size.setWidth 64).toNat := by
  refine h.dvd_add ha ?_
  rwa [BitVec.toNat_setWidth, Nat.mod_eq_of_lt (by omega)]

end Regular

/-- Size and addresses of a request. -/
structure FetchRequest.Divided (cfg : FetchConfig) (r : FetchRequest) : Prop where
  size : cfg.entrySize ∣ r.size.toNat
  ea : cfg.entrySize ∣ r.ea.toNat
  start : cfg.entrySize ∣ r.start.toNat

namespace FetchUnit

variable {cfg : FetchConfig} {env : FetchEnv μ} {k : ℕ} {u : FetchUnit μ}

/-- What holds between calls if everything is a multiple of the entry size. -/
structure Balanced (cfg : FetchConfig) (u : FetchUnit μ) : Prop extends Tracked cfg u where
  accounted : u.Accounted cfg
  requests : ∀ r ∈ u.pendingRequests, r.Divided cfg
  entries : ∀ e ∈ u.instrBuf, cfg.entrySize ∣ e.ea.toNat
  next : cfg.entrySize ∣ u.nextFetchAddr.toNat
  branch : u.incompletePredTakenInstr = true →
    cfg.entrySize ∣ u.lastPred.end.toNat ∧ cfg.entrySize ∣ u.lastPred.target.toNat
  room : u.overrun = false

/-- Only these fields matter. -/
theorem Balanced.congr {u' : FetchUnit μ} (hu : u.Balanced cfg)
    (hspace : u'.currInstrBufSpace = u.currInstrBufSpace) (hbuf : u'.instrBuf = u.instrBuf)
    (hdecode : u'.nextDecodeEntry = u.nextDecodeEntry)
    (hpending : u'.pendingRequests = u.pendingRequests)
    (hnext : u'.nextFetchAddr = u.nextFetchAddr) (hlast : u'.lastPred = u.lastPred)
    (hincomplete : u'.incompletePredTakenInstr = u.incompletePredTakenInstr)
    (hover : u'.overrun = u.overrun) : u'.Balanced cfg := by
  cases u
  cases u'
  cases hspace
  cases hbuf
  cases hdecode
  cases hpending
  cases hnext
  cases hlast
  cases hincomplete
  cases hover
  exact ⟨⟨hu.decoded, hu.nonempty, hu.ahead⟩, hu.accounted, hu.requests, hu.entries, hu.next,
    hu.branch, hu.room⟩

theorem Balanced.length_le (h : Regular cfg env k) (hu : u.Balanced cfg) :
    u.instrBuf.length + u.pendingRequests.length ≤ cfg.nEntries :=
  hu.accounted.length_le (h.entrySize ▸ Nat.two_pow_pos k) fun r hr =>
    Nat.le_of_dvd (hu.nonempty r hr) (hu.requests r hr).size

/-! ### Sending -/

theorem plan_divided (h : Regular cfg env k) (hnext : cfg.entrySize ∣ u.nextFetchAddr.toNat) :
    cfg.entrySize ∣ (u.plan cfg env).addr.toNat ∧
      cfg.entrySize ∣ (u.plan cfg env).frontPadSize.toNat ∧
      cfg.entrySize ∣ (u.plan cfg env).fetchSize := by
  obtain ⟨pad, hpad, hsize, hlt, hle, hend, haddr⟩ := @plan_eq _ cfg env u h.valid
  have hpad_dvd : cfg.entrySize ∣ pad :=
    dvd_pad h.valid h.entrySize h.multiples.fetchSize hnext hsize hend
  have hfront : (u.plan cfg env).frontPadSize.toNat = pad := by
    have hle₀ := h.valid.le _ hsize
    have hlt₀ := h.valid.lt
    rw [hpad, BitVec.toNat_ofNat]
    omega
  have haddr_dvd : cfg.entrySize ∣ (u.nextFetchAddr - BitVec.ofNat 64 pad).toNat := by
    rw [sub_pad_toNat hle]
    exact Nat.dvd_sub hnext hpad_dvd
  refine ⟨?_, hfront ▸ hpad_dvd, h.multiples.fetchSize _ hsize⟩
  rcases haddr with haddr | haddr
  · rwa [haddr]
  · rw [haddr]
    exact h.multiples.ea _ _ haddr_dvd

/-- The branch at which a fetch ends. -/
theorem branch_divided (h : Regular cfg env k) (hu : u.Balanced cfg) {p : Plan}
    (hstart : cfg.entrySize ∣ p.start.toNat) {info : PredTakenInfo}
    (hbranch : Branch cfg env u p info) :
    cfg.entrySize ∣ info.end.toNat ∧ cfg.entrySize ∣ info.target.toNat := by
  obtain ⟨hincomplete, rfl⟩ | ⟨n, -, -, haddr, hpredicted⟩ := hbranch
  · exact hu.branch hincomplete
  · obtain ⟨htarget, hsize⟩ := h.multiples.predict info hpredicted
    refine ⟨?_, htarget⟩
    rw [PredTakenInfo.end, haddr]
    have hoffset := h.dvd_ofNat (h.multiples.bpStep.mul_left n)
    exact h.dvd_add_setWidth (h.dvd_add hstart hoffset) hsize

theorem sendRequest_balanced (h : Regular cfg env k) (hu : u.Balanced cfg)
    (hactive : ∀ r ∈ u.pendingRequests, r.preempted = false)
    (hspace : cfg.fetchSize₀ ≤ u.currInstrBufSpace.toNat) {sent : Bool} {u' : FetchUnit μ}
    (hsend : u.sendRequest cfg env = (sent, u')) :
    u'.Balanced cfg ∧ ∀ r ∈ u'.pendingRequests, r.preempted = false := by
  obtain ⟨haddr, hfront, hsize⟩ := plan_divided h hu.next
  have hp : (u.plan cfg env).Ok cfg u.nextFetchAddr := plan_ok h.valid h.lawful
  have hstart : cfg.entrySize ∣ (u.plan cfg env).start.toNat :=
    h.dvd_add_setWidth haddr hfront
  have htracked := sendRequest_tracked h.valid h.lawful hu.toTracked hsend
  rcases sendRequest_cases h.valid h.lawful hu.ahead hsend with
    ⟨-, m, aligned, rfl⟩ |
    ⟨-, r, m, preds, last, incomplete, next, aligned, rfl, hr, hea, hrsize, hrfront, hnext⟩
  · exact ⟨⟨htracked, hu.accounted, hu.requests, hu.entries, hstart, hu.branch, hu.room⟩, hactive⟩
  · have hrstart : r.start = (u.plan cfg env).start := by
      rw [FetchRequest.start, hea, hrfront, Plan.start]
    -- the bytes end with the block, or with a branch that is predicted to be taken
    have hbytes := hnext.size h.valid h.lawful hp hu.ahead hrsize hrfront
    have hr_dvd : cfg.entrySize ∣ r.size.toNat := by
      rcases hbytes with hbytes | ⟨hbytes, -, hbranch⟩
      · exact (Nat.dvd_add_right hstart).mp (hbytes ▸ Nat.dvd_add haddr hsize)
      · exact (Nat.dvd_add_right hstart).mp (hbytes ▸ (branch_divided h hu hstart hbranch).1)
    have hr_le : r.size.toNat ≤ u.currInstrBufSpace.toNat := by
      have hstart_toNat := hp.start_toNat
      have hle₀ := h.valid.le _ hp.size_mem
      omega
    have hend : cfg.entrySize ∣ (u.plan cfg env).end.toNat := h.dvd_add haddr (h.dvd_ofNat hsize)
    have haccounted := hu.accounted.send h.size_lt hactive hr hr_le
    have hdivided : ∀ x ∈ u.pendingRequests ++ [r], x.Divided cfg :=
      List.forall_mem_append.mpr ⟨hu.requests,
        List.forall_mem_singleton.mpr ⟨hr_dvd, hea ▸ haddr, hrstart ▸ hstart⟩⟩
    have hnonempty : ∀ x ∈ u.pendingRequests ++ [r], 0 < x.size.toNat :=
      List.forall_mem_append.mpr ⟨hu.nonempty, List.forall_mem_singleton.mpr
        (hnext.size_pos h.valid h.lawful hp hu.ahead hrsize hrfront)⟩
    -- every request has reserved an entry, so there is a place for it
    have hplace : u.pendingRequests.length + 1 < numPendingRequests := by
      have hle := haccounted.length_le (h.entrySize ▸ Nat.two_pow_pos k) fun x hx =>
        Nat.le_of_dvd (hnonempty x hx) (hdivided x hx).size
      have hlt := h.valid.nEntries_lt
      rw [List.length_append, List.length_singleton] at hle
      exact ((Nat.le_add_left _ _).trans hle).trans_lt hlt
    rw [Math.ringPush_of_lt hplace] at htracked ⊢
    have hroom :
        (u.overrun || decide (numPendingRequests ≤ u.pendingRequests.length + 1)) = false :=
      Bool.or_eq_false_iff.mpr ⟨hu.room, decide_eq_false (Nat.not_le.mpr hplace)⟩
    refine ⟨⟨htracked, haccounted, hdivided, hu.entries, ?_, ?_, hroom⟩,
      List.forall_mem_append.mpr ⟨hactive, List.forall_mem_singleton.mpr hr⟩⟩
    · obtain ⟨-, ⟨m', rfl⟩, -⟩ | ⟨-, -, -, rfl, hbranch⟩ := hnext
      · exact h.multiples.ea _ _ hend
      · exact (branch_divided h hu hstart hbranch).2
    · intro hincomplete
      obtain ⟨-, -, hbranch⟩ | ⟨-, -, hcomplete, -, -⟩ := hnext
      · exact branch_divided h hu hstart (hbranch hincomplete).2.2
      · rw [hcomplete] at hincomplete
        cases hincomplete

theorem sendLoop_balanced (h : Regular cfg env k) {fuel : ℕ} {first : Bool} (hu : u.Balanced cfg)
    (hactive : (∀ r ∈ u.pendingRequests, r.preempted = false) ∨
      env.hasFetchException u.env = true ∨ env.sendRequestInquire u.env = false) :
    ∃ u', sendLoop cfg env fuel first u = some u' ∧ u'.Balanced cfg := by
  induction fuel generalizing first u with
  | zero =>
    rw [sendLoop, hu.accounted.hasInstrSpace h.size_lt h.minFetchEntries]
    split <;> exact ⟨u, rfl, hu⟩
  | succ fuel ih =>
    rw [sendLoop, hu.accounted.hasInstrSpace h.size_lt h.minFetchEntries]
    split
    case isTrue => exact ⟨u, rfl, hu⟩
    case isFalse hexception =>
      rw [Option.bind_some]
      split
      case isFalse => exact ⟨u, rfl, hu⟩
      case isTrue hcan =>
        simp only [h.minFetchEntries, ne_eq, not_true_eq_false, decide_false, Bool.false_and,
          Bool.or_false, Bool.and_eq_true, decide_eq_true_eq] at hcan
        obtain ⟨hspace, hinquire⟩ := hcan
        have hactive : ∀ r ∈ u.pendingRequests, r.preempted = false := by
          rcases hactive with hactive | hactive | hactive
          · exact hactive
          · exact absurd hactive hexception
          · rw [hactive] at hinquire
            cases hinquire
        have hspace' : cfg.fetchSize₀ ≤ u.currInstrBufSpace.toNat := by
          have hlt := h.valid.lt
          rw [BitVec.le_def, BitVec.toNat_ofNat] at hspace
          omega
        split
        case h_1 u' hsend =>
          obtain ⟨hu', hactive'⟩ := sendRequest_balanced h hu hactive hspace' hsend
          exact ih hu' (.inl hactive')
        case h_2 u' hsend => exact ⟨u', rfl, (sendRequest_balanced h hu hactive hspace' hsend).1⟩

theorem Balanced.setLast {r r' : FetchRequest} {m : μ} {space : BitVec 32} (hu : u.Balanced cfg)
    (hr : u.pendingRequests.getLast? = some r) (hsize : r'.size = r.size) (hea : r'.ea = r.ea)
    (hstart : r'.start = r.start)
    (hspace : space = u.currInstrBufSpace + reserved [r] - reserved [r']) :
    Balanced cfg { u with
      env := m, pendingRequests := u.pendingRequests.dropLast ++ [r'],
      currInstrBufSpace := space } := by
  obtain ⟨front, hpending⟩ := List.getLast?_eq_some_iff.mp hr
  have hrequests := hu.requests
  have haccounted := hu.accounted
  have htracked := @Tracked.setLast _ cfg u r r' m space hu.toTracked hr hsize
  rw [Accounted, hpending] at haccounted
  rw [hpending, List.dropLast_concat] at htracked
  rw [hpending] at hrequests ⊢
  rw [List.dropLast_concat]
  have hdivided := hrequests r (List.mem_append_right _ List.mem_cons_self)
  refine ⟨htracked, hspace ▸ haccounted.setLast hsize, ?_, hu.entries, hu.next, hu.branch,
    hu.room⟩
  refine List.forall_mem_append.mpr ⟨fun x hx => hrequests x (List.mem_append_left _ hx), ?_⟩
  exact List.forall_mem_singleton.mpr
    ⟨hsize ▸ hdivided.size, hea ▸ hdivided.ea, hstart ▸ hdivided.start⟩

/-- After `resend` no request is preempted, or nothing can be sent. -/
theorem resend_balanced (hu : u.Balanced cfg) :
    (u.resend env).2.Balanced cfg ∧
      ((∀ r ∈ (u.resend env).2.pendingRequests, r.preempted = false) ∨
        env.hasFetchException (u.resend env).2.env = true ∨
        env.sendRequestInquire (u.resend env).2.env = false) := by
  rw [resend]
  split
  case h_2 hnone =>
    rw [List.getLast?_eq_none_iff.mp hnone]
    exact ⟨hu, .inl fun _ hr => absurd hr List.not_mem_nil⟩
  case h_1 r hr =>
    obtain ⟨front, hpending⟩ := List.getLast?_eq_some_iff.mp hr
    have hfront := hu.accounted.last
    rw [hpending, List.dropLast_concat] at hfront
    split
    case isTrue hcan =>
      have hpre : r.preempted = true := by
        simp only [Bool.and_eq_true] at hcan
        exact hcan.1.2
      refine ⟨hu.setLast hr rfl rfl rfl ?_, .inl ?_⟩
      · rw [reserved_singleton, reserved_singleton, hpre]
        simp [FetchRequest.size]
      · rw [hpending, List.dropLast_concat]
        exact List.forall_mem_append.mpr ⟨hfront, List.forall_mem_singleton.mpr rfl⟩
    case isFalse hcan =>
      refine ⟨hu, ?_⟩
      simp only [Bool.and_eq_true, Bool.not_eq_true', not_and, Bool.not_eq_true] at hcan
      cases hexception : env.hasFetchException u.env with
      | true => exact .inr (.inl rfl)
      | false =>
        cases hpre : r.preempted with
        | true => exact .inr (.inr (hcan ⟨hexception, hpre⟩))
        | false =>
          rw [hpending]
          exact .inl (List.forall_mem_append.mpr ⟨hfront, List.forall_mem_singleton.mpr hpre⟩)

theorem sendFetchRequests_balanced (h : Regular cfg env k) (hu : u.Balanced cfg) :
    ∃ u', u.sendFetchRequests cfg env = some u' ∧ u'.Balanced cfg := by
  obtain ⟨hresend, hactive⟩ := @resend_balanced _ cfg env u hu
  rw [sendFetchRequests]
  split
  case isFalse => exact ⟨u, rfl, hu⟩
  case isTrue =>
    split
    case h_1 u' heq =>
      rw [heq] at hresend hactive
      exact sendLoop_balanced h hresend hactive
    case h_2 u' heq =>
      rw [heq] at hresend hactive
      exact sendLoop_balanced h hresend hactive

/-! ### Receiving -/

/-- The memory serves a request that is preempted. The list is the one that `receiveLoop` works
through. -/
def servesPreempted (env : FetchEnv μ) : List FetchRequest → μ → Bool
  | [], _ => false
  | r :: rest, m =>
    env.readInquire m r.id && (r.preempted || servesPreempted env rest (env.read m r.id).2)

theorem receive_balanced (h : Regular cfg env k) (hu : u.Balanced cfg) {r : FetchRequest}
    {rest : List FetchRequest} (hpending : u.pendingRequests = r :: rest)
    (hr : r.preempted = false) : (u.receive cfg env r rest).Balanced cfg := by
  obtain ⟨buf, preds, overrun, heq, hstored⟩ := @receive_eq _ cfg env u r rest
  have hrequests := hu.requests
  have haccounted := hu.accounted
  rw [Accounted, hpending] at haccounted
  rw [hpending] at hrequests
  have hdivided := hrequests r List.mem_cons_self
  have hpos : 0 < cfg.entrySize := h.entrySize ▸ Nat.two_pow_pos k
  obtain ⟨n, hn⟩ := hdivided.size
  have hreceived := haccounted.receive hr (hn.trans (Nat.mul_comm _ _))
  have hrest : ∀ x ∈ rest, x.Divided cfg := fun x hx => hrequests x (List.mem_cons_of_mem _ hx)
  -- the entries were reserved, so that there are places for them
  have hplace : u.instrBuf.length + entriesOf cfg r < numInstrBufEntries := by
    have hle := hreceived.length_le hpos fun x hx => Nat.le_of_dvd
      (hu.nonempty x (hpending ▸ List.mem_cons_of_mem _ hx)) (hrest x hx).size
    rw [entriesOf_eq hpos hn]
    exact ((Nat.le_add_right _ _).trans hle).trans_lt h.valid.nEntries_lt
  have hroom : overrun = false := (hstored.room hplace).trans hu.room
  obtain ⟨-, entries, rfl, hlength, heas⟩ := hstored.entries hroom
  have htracked := @receive_tracked _ cfg env u hu.toTracked r rest hpending
  rw [heq] at htracked ⊢
  refine ⟨htracked, ?_, hrest, ?_, hu.next, hu.branch, hroom⟩
  · rw [Accounted, List.length_append, hlength, entriesOf_eq hpos hn]
    exact hreceived
  · refine List.forall_mem_append.mpr ⟨hu.entries, fun e he => ?_⟩
    obtain ⟨i, hi⟩ := List.getElem?_of_mem he
    rw [heas i e hi]
    exact h.dvd_add hdivided.start (h.dvd_ofNat (Nat.dvd_mul_left _ i))

theorem receiveLoop_balanced (h : Regular cfg env k) {fuel : ℕ} (hu : u.Balanced cfg)
    (hserves : servesPreempted env u.pendingRequests u.env = false) :
    (receiveLoop cfg env fuel u).Balanced cfg := by
  refine (receiveLoop_invariant (P := fun x => x.Balanced cfg ∧
    servesPreempted env x.pendingRequests x.env = false)
    (fun x r rest hx hpending hinquire => ?_) ⟨hu, hserves⟩).1
  obtain ⟨hx, hserves⟩ := hx
  rw [hpending, servesPreempted, hinquire, Bool.true_and, Bool.or_eq_false_iff] at hserves
  obtain ⟨buf, preds, overrun, heq, -⟩ := @receive_eq _ cfg env x r rest
  refine ⟨receive_balanced h hx hpending hserves.1, ?_⟩
  rw [heq]
  exact hserves.2

theorem receiveInstrData_balanced (h : Regular cfg env k) (hu : u.Balanced cfg)
    (hserves : servesPreempted env u.pendingRequests u.env = false) :
    ∃ u', u.receiveInstrData cfg env = some u' ∧ u'.Balanced cfg := by
  have hloop (b : Bool) : (receiveLoop cfg env u.pendingRequests.length
      { u with tryNewFetch := b }).Balanced cfg :=
    receiveLoop_balanced h (hu.congr rfl rfl rfl rfl rfl rfl rfl rfl) hserves
  rw [receiveInstrData, hu.accounted.hasInstrSpace h.size_lt h.minFetchEntries]
  split <;> exact ⟨_, rfl, hloop _⟩

/-! ### Flushing -/

theorem truncate_balanced (hu : u.Balanced cfg) {n : ℕ} (hn : u.nextDecodeEntry ≤ n) :
    (u.truncate cfg n).Balanced cfg := by
  refine ⟨truncate_tracked hu.toTracked hn, ?_, hu.requests,
    fun e he => hu.entries e (List.mem_of_mem_take he), hu.next, hu.branch, hu.room⟩
  have hlength : (u.instrBuf.take n).length = u.instrBuf.length - (u.instrBuf.length - n) := by
    rw [List.length_take]
    omega
  rw [truncate, Accounted, hlength]
  exact hu.accounted.shrink (Nat.sub_le _ _)

theorem cancelPending_eq (hlast : ∀ r ∈ u.pendingRequests.dropLast, r.preempted = false)
    (deep : Bool) :
    ∃ m, u.cancelPending cfg env deep = { u with
      env := m, pendingRequests := [],
      currInstrBufSpace := u.currInstrBufSpace + reserved u.pendingRequests } := by
  rw [cancelPending]
  dsimp only [cancelAll]
  split
  case h_2 hnone =>
    rw [List.getLast?_eq_none_iff.mp hnone]
    exact ⟨_, rfl⟩
  case h_1 r hr =>
    obtain ⟨front, hpending⟩ := List.getLast?_eq_some_iff.mp hr
    rw [hpending, List.dropLast_concat] at hlast ⊢
    rw [reserved_append, reserved_singleton, reserved_of_forall hlast]
    split
    · rw [add_zero]
      exact ⟨_, rfl⟩
    · rw [← add_assoc]
      exact ⟨_, by simp only [List.map_cons, List.map_nil, List.sum_singleton]; rfl⟩

theorem flushInstrBuf_balanced (h : Regular cfg env k) (hu : u.Balanced cfg) {remain : ℕ}
    {a : Addr} {deep : Bool} (ha : cfg.entrySize ∣ a.toNat) :
    (u.flushInstrBuf cfg env remain a deep).Balanced cfg := by
  have hcut := truncate_balanced hu (Nat.le_add_right u.nextDecodeEntry remain)
  obtain ⟨m, hcancel⟩ := @cancelPending_eq _ cfg env (u.truncate cfg (u.nextDecodeEntry + remain))
    hcut.accounted.last deep
  have htracked := @flushInstrBuf_tracked _ cfg env u hu.toTracked remain a deep
  rw [flushInstrBuf, hcancel] at htracked ⊢
  refine ⟨htracked, hcut.accounted.cancelPending, fun _ hr => absurd hr List.not_mem_nil,
    hcut.entries, ?_, ?_, hu.room⟩
  · dsimp only
    split
    · exact ha
    · generalize hget : (u.truncate cfg (u.nextDecodeEntry + remain)).instrBuf[(_ : ℕ)]? = found
      cases found with
      | none => exact ha
      | some e =>
        have he := hcut.entries e (List.mem_of_getElem? hget)
        exact h.multiples.ea _ _ (h.dvd_add he (h.dvd_ofNat dvd_rfl))
  · intro hincomplete
    rw [Bool.and_eq_true] at hincomplete
    exact hcut.branch hincomplete.2

theorem reuseEntry_balanced (hu : u.Balanced cfg) {i : ℕ}
    (hi : u.nextDecodeEntry + i < u.instrBuf.length) : (u.reuseEntry cfg i).Balanced cfg := by
  have hlength : (u.instrBuf.take u.nextDecodeEntry ++
      u.instrBuf.drop (u.nextDecodeEntry + i)).length = u.instrBuf.length - i := by
    rw [List.length_append, List.length_take, List.length_drop]
    omega
  refine ⟨reuseEntry_tracked hu.toTracked hi, ?_, hu.requests, ?_, hu.next, hu.branch, hu.room⟩
  · rw [Accounted, reuseEntry, hlength]
    exact hu.accounted.shrink (by omega)
  · refine List.forall_mem_append.mpr ⟨fun e he => ?_, fun e he => ?_⟩
    · exact hu.entries e (List.mem_of_mem_take he)
    · exact hu.entries e (List.mem_of_mem_drop he)

theorem reuseRequest_balanced (hu : u.Balanced cfg) {i : ℕ} (hi : i < u.pendingRequests.length) :
    (u.reuseRequest cfg env i).Balanced cfg := by
  have hcut := truncate_balanced hu le_rfl
  have hsplit : u.pendingRequests.take i ++ u.pendingRequests.drop i = u.pendingRequests :=
    List.take_append_drop i u.pendingRequests
  have hfront : ∀ r ∈ u.pendingRequests.take i, r.preempted = false := by
    intro r hr
    apply hu.accounted.last
    rw [List.dropLast_eq_take]
    have hmin : i = min i (u.pendingRequests.length - 1) := by omega
    rw [hmin, ← List.take_take] at hr
    exact List.mem_of_mem_take hr
  have haccounted := hcut.accounted
  rw [Accounted, truncate, ← hsplit] at haccounted
  exact ⟨reuseRequest_tracked hu.toTracked, haccounted.cancel hfront,
    fun r hr => hu.requests r (List.mem_of_mem_drop hr), hcut.entries, hu.next, hu.branch, hu.room⟩

theorem flush_balanced (h : Regular cfg env k) (hu : u.Balanced cfg) {a : Addr}
    (ha : cfg.entrySize ∣ a.toNat) : (u.flush cfg env a).2.Balanced cfg := by
  have henv (m : μ) : Balanced cfg { u with env := m } := hu.congr rfl rfl rfl rfl rfl rfl rfl rfl
  rcases flush_cases cfg env u a with ⟨i, m, e, heq, he, -⟩ | ⟨i, m, r, heq, hr, -⟩ | ⟨m, heq, -⟩
  · have hu' := reuseEntry_balanced (henv m) (List.getElem?_eq_some_iff.mp he).1
    exact heq ▸ hu'.congr rfl rfl rfl rfl rfl rfl rfl rfl
  · have hu' := @reuseRequest_balanced _ cfg env _ (henv m) i (List.getElem?_eq_some_iff.mp hr).1
    exact heq ▸ hu'.congr rfl rfl rfl rfl rfl rfl rfl rfl
  · have hu' := @flushInstrBuf_balanced _ cfg env k _ h (henv m) 0 a u.canCancel ha
    exact heq ▸ hu'.congr rfl rfl rfl rfl rfl rfl rfl rfl

theorem cancel_balanced (h : Regular cfg env k) (hu : u.Balanced cfg) :
    (u.cancel cfg env).Balanced cfg := by
  rw [FetchUnit.cancel]
  split
  case h_1 => exact hu
  case h_2 r rest hpending =>
    have hr := hu.requests r (hpending ▸ List.mem_cons_self)
    have hu' := @flushInstrBuf_balanced _ cfg env k u h hu u.instrBuf.length r.ea u.canCancel hr.ea
    exact hu'.congr rfl rfl rfl rfl rfl rfl rfl rfl

/-! ### Decoding -/

theorem clearPrediction_balanced (hu : u.Balanced cfg) {i : ℕ} :
    Balanced cfg { u with instrBuf := u.instrBuf.modify i ({ · with predTaken := false }) } := by
  refine ⟨clearPrediction_tracked hu.toTracked, ?_, hu.requests, ?_, hu.next, hu.branch, hu.room⟩
  · rw [Accounted, List.length_modify]
    exact hu.accounted
  · intro e he
    obtain ⟨j, hj⟩ := List.getElem?_of_mem he
    rw [List.getElem?_modify] at hj
    obtain ⟨e', he', rfl⟩ := Option.map_eq_some_iff.mp hj
    have hea := hu.entries e' (List.mem_of_getElem? he')
    split <;> exact hea

theorem decodeUpdate_balanced (h : Regular cfg env k) (hu : u.Balanced cfg) {success : Bool}
    {size : ℕ} (hdecoded : (u.decodeUpdate cfg env success size).nextDecodeEntry ≤
      (u.decodeUpdate cfg env success size).instrBuf.length) :
    (u.decodeUpdate cfg env success size).Balanced cfg := by
  obtain ⟨x, n, hx, heq⟩ := decodeUpdate_invariant (P := Balanced cfg)
    (fun _ _ hx => hx.congr rfl rfl rfl rfl rfl rfl rfl rfl)
    (fun _ _ hx => clearPrediction_balanced hx)
    (fun _ _ hx => flushInstrBuf_balanced h hx (dvd_zero _)) hu
  rw [heq] at hdecoded ⊢
  exact ⟨⟨fun _ => hdecoded, hx.nonempty, hx.ahead⟩, hx.accounted, hx.requests, hx.entries, hx.next,
    hx.branch, hx.room⟩

theorem removeInstr_balanced (hu : u.Balanced cfg) {size : ℕ} (hsize : cfg.entrySize ∣ size)
    (hentries : removedEntries cfg size ≤ u.nextDecodeEntry) :
    (u.removeInstr cfg size).Balanced cfg := by
  have htracked := removeInstr_tracked hu.toTracked hentries
  rw [removeInstr] at htracked ⊢
  split
  case isTrue => exact hu
  case isFalse hne =>
    rw [if_neg hne] at htracked
    have hbytes : (if cfg.minInstrSize = cfg.maxInstrSize then
        BitVec.ofNat 32 (removedEntries cfg size) * BitVec.ofNat 32 cfg.entrySize
        else BitVec.ofNat 32 size) =
        BitVec.ofNat 32 (removedEntries cfg size) * BitVec.ofNat 32 cfg.entrySize := by
      split
      · rfl
      case isFalse hfixed =>
        rw [removedEntries, if_neg hne, if_neg hfixed, ← BitVec.ofNat_mul,
          Nat.div_mul_cancel hsize]
    refine ⟨htracked, ?_, hu.requests, fun e he => hu.entries e (List.mem_of_mem_drop he), hu.next,
      hu.branch, hu.room⟩
    dsimp only [Accounted]
    rw [hbytes, List.length_drop]
    exact hu.accounted.shrink (hentries.trans (hu.decoded hu.room))

/-! ### Runs -/

/-- What the counter needs of a call: the memory does not serve preempted requests, instructions are
decoded before they are removed, sizes and addresses are multiples of the entry size, and only a
request that is not preempted can be preempted. -/
def Proper (cfg : FetchConfig) (env : FetchEnv μ) (u : FetchUnit μ) : FetchOp μ → Prop
  | .receiveInstrData => servesPreempted env u.pendingRequests u.env = false
  | .decodeUpdate success size =>
    (u.decodeUpdate cfg env success size).nextDecodeEntry ≤
      (u.decodeUpdate cfg env success size).instrBuf.length
  | .removeInstr size => cfg.entrySize ∣ size ∧ removedEntries cfg size ≤ u.nextDecodeEntry
  | .flush newFetchAddr => cfg.entrySize ∣ newFetchAddr.toNat
  | .preemptFetch => u.pendingRequests.getLast?.map (·.preempted) = some false
  | _ => True

instance (op : FetchOp μ) : Decidable (u.Proper cfg env op) :=
  match op with
  | .receiveInstrData => inferInstanceAs (Decidable (_ = _))
  | .decodeUpdate _ _ => inferInstanceAs (Decidable (_ ≤ _))
  | .removeInstr _ => inferInstanceAs (Decidable (_ ∧ _))
  | .flush _ => inferInstanceAs (Decidable (_ ∣ _))
  | .preemptFetch => inferInstanceAs (Decidable (_ = _))
  | .sendFetchRequests | .instrData | .cancel | .setCancel _ | .pauseFetch | .forceFetch
  | .fullReset | .environment _ => .isTrue trivial

theorem preemptFetch_balanced (hu : u.Balanced cfg)
    (hlast : u.pendingRequests.getLast?.map (·.preempted) = some false) :
    u.preemptFetch.Balanced cfg := by
  obtain ⟨r, hr, hpre⟩ := Option.map_eq_some_iff.mp hlast
  rw [preemptFetch, hr]
  refine hu.setLast hr rfl rfl rfl ?_
  rw [reserved_singleton, reserved_singleton, hpre]
  simp

theorem fullReset_balanced (hu : u.Balanced cfg) : (u.fullReset cfg).Balanced cfg :=
  ⟨⟨fun _ => le_rfl, nofun, nofun⟩,
    ⟨by simp [fullReset, reserved], by simp [fullReset, booked], nofun⟩, nofun, nofun, hu.next,
    nofun, hu.room⟩

theorem initial_balanced (m : μ) : (initial cfg m).Balanced cfg :=
  ⟨initial_tracked m, ⟨by simp [initial, reserved], by simp [initial, booked], nofun⟩, nofun, nofun,
    dvd_zero _, nofun, rfl⟩

/-- No assertion fails in a call, no ring buffer is overrun, and the counter stays right. -/
theorem exec_balanced (h : Regular cfg env k) {op : FetchOp μ} (hop : u.Proper cfg env op)
    (hu : u.Balanced cfg) : ∃ u', u.exec cfg env op = some u' ∧ u'.Balanced cfg := by
  cases op with
  | receiveInstrData => exact receiveInstrData_balanced h hu hop
  | sendFetchRequests => exact sendFetchRequests_balanced h hu
  | instrData =>
    obtain ⟨taken, target, n, heq⟩ := @instrData_frame _ cfg u
    exact ⟨_, rfl, heq ▸ hu.congr rfl rfl rfl rfl rfl rfl rfl rfl⟩
  | decodeUpdate success size => exact ⟨_, rfl, decodeUpdate_balanced h hu hop⟩
  | removeInstr size => exact ⟨_, rfl, removeInstr_balanced hu hop.1 hop.2⟩
  | flush a => exact ⟨_, rfl, flush_balanced h hu hop⟩
  | cancel => exact ⟨_, rfl, cancel_balanced h hu⟩
  | preemptFetch => exact ⟨_, rfl, preemptFetch_balanced hu hop⟩
  | fullReset => exact ⟨_, rfl, fullReset_balanced hu⟩
  | setCancel _ | pauseFetch | forceFetch | environment _ =>
    exact ⟨_, rfl, hu.congr rfl rfl rfl rfl rfl rfl rfl rfl⟩

theorem run_balanced (h : Regular cfg env k) {m : μ} {ops : List (FetchOp μ)}
    (hops : Math.Allowed (exec cfg env) (Proper cfg env) (initial cfg m) ops) :
    ∃ u, ops.foldlM (exec cfg env) (initial cfg m) = some u ∧ u.Balanced cfg :=
  Math.foldlM_invariant (fun _ _ => exec_balanced h) hops (initial_balanced m)

end FetchUnit

/-- In every run the buffer has at most its number of entries. -/
theorem buffer_bound {cfg : FetchConfig} {env : FetchEnv μ} {k : ℕ} (h : Regular cfg env k) {m : μ}
    {ops : List (FetchOp μ)}
    (hops : Math.Allowed (FetchUnit.exec cfg env) (FetchUnit.Proper cfg env)
      (FetchUnit.initial cfg m) ops) :
    ∃ u, ops.foldlM (FetchUnit.exec cfg env) (FetchUnit.initial cfg m) = some u ∧
      u.instrBuf.length ≤ cfg.nEntries := by
  obtain ⟨u, hrun, hu⟩ := FetchUnit.run_balanced h hops
  exact ⟨u, hrun, (Nat.le_add_right _ _).trans (hu.length_le h)⟩

theorem zeroMemory_multiples {cfg : FetchConfig} (hsizes : ∀ s ∈ cfg.fetchSizes, cfg.entrySize ∣ s)
    (hstep : cfg.entrySize ∣ cfg.bpStep) : Multiples cfg zeroMemory :=
  ⟨hsizes, hstep, fun _ _ ha => ha, fun _ ⟨_, _, h⟩ => by cases h⟩

theorem plainFetch_regular : Regular (plainFetch 4 4 8 true) zeroMemory 2 :=
  ⟨plainFetch_valid, zeroMemory_lawful, zeroMemory_multiples (by decide) (by decide), rfl,
    by decide, rfl⟩

/-- Two fetches fill the buffer. -/
theorem buffer_bound_full :
    ∃ u, [FetchOp.flush 0, .receiveInstrData, .sendFetchRequests, .sendFetchRequests,
        .environment true, .receiveInstrData, .sendFetchRequests].foldlM
          (FetchUnit.exec (plainFetch 4 4 8 true) zeroMemory)
          (FetchUnit.initial (plainFetch 4 4 8 true) false) = some u ∧ u.instrBuf.length ≤ 4 :=
  buffer_bound plainFetch_regular (by decide)

/-- With a minimum of free entries the requests that are sent are not counted: two fetches bring
four entries to a buffer of two. -/
theorem buffer_overfull :
    ([FetchOp.flush 0, .receiveInstrData, .sendFetchRequests, .sendFetchRequests, .environment true,
      .receiveInstrData].foldlM
        (FetchUnit.exec { plainFetch 2 4 8 true with minFetchEntries := 2 } zeroMemory)
        (FetchUnit.initial { plainFetch 2 4 8 true with minFetchEntries := 2 } false)).map
      (·.instrBuf.length) = some 4 := by
  decide +kernel

end Adl.Uadl
