import Adl.Math.Machine
import Adl.Uadl.FetchPlan

/-!
# What holds between calls of the fetch unit

Decoding does not run ahead of the buffer unless this is overrun, every request brings something,
and a branch that continues in the next fetch ends behind its address. Every call keeps this, if the
decoder takes only what is there and removes only what it has taken.
-/

namespace Adl.Uadl

namespace FetchUnit

variable {μ : Type*} {cfg : FetchConfig} {env : FetchEnv μ} {u u' : FetchUnit μ}

/-- The entry to be decoded next is at most one behind the buffer, and no request is empty. -/
structure Tracked (cfg : FetchConfig) (u : FetchUnit μ) : Prop where
  decoded : u.overrun = false → u.nextDecodeEntry ≤ u.instrBuf.length
  nonempty : ∀ r ∈ u.pendingRequests, 0 < r.size.toNat
  ahead : u.Ahead cfg

theorem initial_tracked (m : μ) : (initial cfg m).Tracked cfg :=
  ⟨fun _ => le_rfl, nofun, nofun⟩

/-! ### Sending -/

theorem sendRequest_tracked (h : cfg.Valid) (henv : env.Lawful) (hu : u.Tracked cfg) {sent : Bool}
    (hsend : u.sendRequest cfg env = (sent, u')) : u'.Tracked cfg := by
  have hp : (u.plan cfg env).Ok cfg u.nextFetchAddr := plan_ok h henv
  have hstart := hp.start_toNat
  rcases sendRequest_cases h henv hu.ahead hsend with
    ⟨-, m, aligned, rfl⟩ |
    ⟨-, r, m, preds, last, incomplete, next, aligned, rfl, -, -, hsize, hfront, hnext⟩
  · refine ⟨hu.decoded, hu.nonempty, fun hincomplete => ?_⟩
    have hahead := hu.ahead hincomplete
    have hle := hp.start_le
    exact ⟨hahead.1, by dsimp only; omega⟩
  · refine ⟨fun hroom => hu.decoded (Bool.or_eq_false_iff.mp hroom).1, ?_, fun hincomplete => ?_⟩
    · exact Math.forall_mem_ringPush hu.nonempty (hnext.size_pos h henv hp hu.ahead hsize hfront)
    · obtain ⟨-, ⟨m', rfl⟩, hbranch⟩ | ⟨-, -, hcomplete, -, -⟩ := hnext
      · obtain ⟨hpredictor, hlt, -⟩ := hbranch hincomplete
        exact ⟨hpredictor, (henv.ea_le _ _).trans_lt hlt⟩
      · rw [hcomplete] at hincomplete
        cases hincomplete

/-- What every request keeps, with the number of requests that can still be sent, holds after the
loop. -/
theorem sendLoop_invariant {P : ℕ → FetchUnit μ → Prop}
    (hstep : ∀ fuel u sent u', P (fuel + 1) u → u.sendRequest cfg env = (sent, u') → P fuel u')
    {fuel : ℕ} {first : Bool} (hu : P fuel u) (hloop : sendLoop cfg env fuel first u = some u') :
    ∃ left, P left u' := by
  induction fuel generalizing first u with
  | zero =>
    rw [sendLoop] at hloop
    split at hloop
    · exact ⟨_, Option.some.inj hloop ▸ hu⟩
    · obtain ⟨-, -, rfl⟩ := Option.map_eq_some_iff.mp hloop
      exact ⟨_, hu⟩
  | succ fuel ih =>
    rw [sendLoop] at hloop
    split at hloop
    · exact ⟨_, Option.some.inj hloop ▸ hu⟩
    · obtain ⟨hasSpace, -, hloop⟩ := Option.bind_eq_some_iff.mp hloop
      split at hloop
      · split at hloop
        case h_1 u₁ hsend => exact ih (hstep _ _ _ _ hu hsend) hloop
        case h_2 u₁ hsend => exact ⟨_, Option.some.inj hloop ▸ hstep _ _ _ _ hu hsend⟩
      · exact ⟨_, Option.some.inj hloop ▸ hu⟩

/-- Nothing is sent, or the loop runs after the last request has been sent again. -/
theorem sendFetchRequests_cases (hsend : u.sendFetchRequests cfg env = some u') :
    u' = u ∨ ∃ fuel ≤ cfg.maxFetchCount, ∃ first,
      sendLoop cfg env fuel first (u.resend env).2 = some u' := by
  rw [sendFetchRequests] at hsend
  split at hsend
  · split at hsend
    case h_1 u₁ heq => exact .inr ⟨_, Nat.sub_le _ _, _, by rw [heq]; exact hsend⟩
    case h_2 u₁ heq => exact .inr ⟨_, le_rfl, _, by rw [heq]; exact hsend⟩
  · exact .inl (Option.some.inj hsend).symm

/-- The last request is replaced by one of the same size. -/
theorem Tracked.setLast {r r' : FetchRequest} {m : μ} {space : BitVec 32} (hu : u.Tracked cfg)
    (hr : u.pendingRequests.getLast? = some r) (hsize : r'.size = r.size) :
    Tracked cfg { u with
      env := m, pendingRequests := u.pendingRequests.dropLast ++ [r'],
      currInstrBufSpace := space } := by
  refine ⟨hu.decoded, List.forall_mem_append.mpr ⟨fun x hx => ?_, ?_⟩, hu.ahead⟩
  · exact hu.nonempty x (List.mem_of_mem_dropLast hx)
  · exact List.forall_mem_singleton.mpr (hsize ▸ hu.nonempty r (List.mem_of_getLast? hr))

theorem resend_tracked (hu : u.Tracked cfg) : (u.resend env).2.Tracked cfg := by
  rw [resend]
  split
  case h_2 => exact hu
  case h_1 r hr =>
    split
    · exact hu.setLast hr rfl
    · exact hu

theorem sendFetchRequests_tracked (h : cfg.Valid) (henv : env.Lawful) (hu : u.Tracked cfg)
    (hsend : u.sendFetchRequests cfg env = some u') : u'.Tracked cfg := by
  rcases sendFetchRequests_cases hsend with rfl | ⟨fuel, -, first, hloop⟩
  · exact hu
  · obtain ⟨-, hu'⟩ := sendLoop_invariant (P := fun _ x => x.Tracked cfg)
      (fun _ _ _ _ hx => sendRequest_tracked h henv hx) (resend_tracked hu) hloop
    exact hu'

/-- A preempted request keeps its place in the queue. -/
theorem preemptFetch_tracked (hu : u.Tracked cfg) : u.preemptFetch.Tracked cfg := by
  rw [preemptFetch]
  split
  case h_1 r hr => exact hu.setLast hr rfl
  case h_2 => exact hu

/-! ### Receiving -/

theorem receive_tracked (hu : u.Tracked cfg) {r : FetchRequest} {rest : List FetchRequest}
    (hpending : u.pendingRequests = r :: rest) : (u.receive cfg env r rest).Tracked cfg := by
  obtain ⟨buf, preds, overrun, heq, hstored⟩ := @receive_eq _ cfg env u r rest
  rw [heq]
  refine ⟨fun hroom => ?_, fun x hx => hu.nonempty x (hpending ▸ List.mem_cons_of_mem _ hx),
    hu.ahead⟩
  obtain ⟨hu', entries, rfl, -⟩ := hstored.entries hroom
  rw [List.length_append]
  exact (hu.decoded hu').trans (Nat.le_add_right _ _)

/-- What every request keeps that is received holds after the loop. -/
theorem receiveLoop_invariant {P : FetchUnit μ → Prop}
    (hstep : ∀ u r rest, P u → u.pendingRequests = r :: rest →
      env.readInquire u.env r.id = true → P (u.receive cfg env r rest))
    {fuel : ℕ} (hu : P u) : P (receiveLoop cfg env fuel u) := by
  induction fuel generalizing u with
  | zero => exact hu
  | succ fuel ih =>
    rw [receiveLoop]
    split
    case h_1 => exact hu
    case h_2 r rest hpending =>
      split
      case isTrue hinquire => exact ih (hstep u r rest hu hpending hinquire)
      case isFalse => exact hu

theorem receiveInstrData_eq (hreceive : u.receiveInstrData cfg env = some u') :
    ∃ tryNewFetch, u' = receiveLoop cfg env u.pendingRequests.length
      { u with tryNewFetch := tryNewFetch } := by
  obtain ⟨tryNewFetch, -, heq⟩ := Option.map_eq_some_iff.mp hreceive
  exact ⟨tryNewFetch, heq.symm⟩

theorem receiveInstrData_tracked (hu : u.Tracked cfg)
    (hreceive : u.receiveInstrData cfg env = some u') : u'.Tracked cfg := by
  obtain ⟨tryNewFetch, rfl⟩ := receiveInstrData_eq hreceive
  exact receiveLoop_invariant (fun _ _ _ hx hpending _ => receive_tracked hx hpending)
    ⟨hu.decoded, hu.nonempty, hu.ahead⟩

/-! ### Flushing -/

/-- Entries that have not been decoded may be dropped. -/
theorem truncate_tracked (hu : u.Tracked cfg) {n : ℕ} (hn : u.nextDecodeEntry ≤ n) :
    (u.truncate cfg n).Tracked cfg := by
  refine ⟨fun hroom => ?_, hu.nonempty, hu.ahead⟩
  rw [truncate, List.length_take]
  exact le_min hn (hu.decoded hroom)

/-- Cancelling changes the requests, their space and the memory. -/
theorem cancelPending_frame (deep : Bool) :
    ∃ m space, u.cancelPending cfg env deep = { u with
      env := m, pendingRequests := [], currInstrBufSpace := space } := by
  rw [cancelPending]
  dsimp only [cancelAll]
  split
  · split <;> exact ⟨_, _, rfl⟩
  · exact ⟨_, _, rfl⟩

/-- A flush leaves no request. A branch that continues is forgotten. -/
theorem flushInstrBuf_tracked (hu : u.Tracked cfg) {remain : ℕ} {a : Addr} {deep : Bool} :
    (u.flushInstrBuf cfg env remain a deep).Tracked cfg := by
  have hcut := truncate_tracked hu (Nat.le_add_right u.nextDecodeEntry remain)
  obtain ⟨m, space, hcancel⟩ :=
    @cancelPending_frame _ cfg env (u.truncate cfg (u.nextDecodeEntry + remain)) deep
  rw [flushInstrBuf, hcancel]
  refine ⟨hcut.decoded, nofun, fun hincomplete => ?_⟩
  rw [Bool.and_eq_true, Bool.not_eq_true'] at hincomplete
  have hahead := (hcut.ahead hincomplete.2).1
  rw [hincomplete.1] at hahead
  cases hahead

theorem reuseEntry_tracked (hu : u.Tracked cfg) {i : ℕ}
    (hi : u.nextDecodeEntry + i < u.instrBuf.length) : (u.reuseEntry cfg i).Tracked cfg := by
  refine ⟨fun _ => ?_, hu.nonempty, hu.ahead⟩
  rw [reuseEntry, List.length_append, List.length_take, List.length_drop]
  dsimp only
  omega

theorem reuseRequest_tracked (hu : u.Tracked cfg) {i : ℕ} :
    (u.reuseRequest cfg env i).Tracked cfg := by
  have hcut := truncate_tracked hu le_rfl
  exact ⟨hcut.decoded, fun r hr => hu.nonempty r (List.mem_of_mem_drop hr), hu.ahead⟩

def findRequest (env : FetchEnv μ) (u : FetchUnit μ) (a : Addr) : Option FetchRequest :=
  match findTarget env a ((u.instrBuf.drop u.nextDecodeEntry).map fun e => (e.ea, e.ra)) u.env with
  | (some _, _) => none
  | (none, m) =>
    (findTarget env a (u.pendingRequests.map fun r => (r.ea, r.ra)) m).1.bind
      (u.pendingRequests[·]?)

/-- What a flush finds: an entry, a request, or nothing. -/
theorem reuse_cases (cfg : FetchConfig) (env : FetchEnv μ) (u : FetchUnit μ) (a : Addr) :
    (∃ i m e, u.reuse cfg env a = (true, reuseEntry cfg { u with env := m } i) ∧
      u.instrBuf[u.nextDecodeEntry + i]? = some e ∧ e.ea = a ∧ u.findRequest env a = none) ∨
    (∃ i m r, u.reuse cfg env a = (true, reuseRequest cfg env { u with env := m } i) ∧
      u.pendingRequests[i]? = some r ∧ r.ea = a ∧ u.findRequest env a = some r) ∨
    ∃ m, u.reuse cfg env a = (false, { u with env := m }) ∧ u.findRequest env a = none := by
  rcases hfind : findTarget env a ((u.instrBuf.drop u.nextDecodeEntry).map fun e => (e.ea, e.ra))
    u.env with ⟨_ | i, m⟩
  · rcases hfind' : findTarget env a (u.pendingRequests.map fun r => (r.ea, r.ra)) m with
      ⟨_ | i, m'⟩
    · exact .inr (.inr ⟨m', by simp only [reuse, hfind, hfind'],
        by simp only [findRequest, hfind, hfind', Option.bind_none]⟩)
    · obtain ⟨ra, hget⟩ := findTarget_some hfind'
      rw [List.getElem?_map] at hget
      obtain ⟨r, hr, hea⟩ := Option.map_eq_some_iff.mp hget
      exact .inr (.inl ⟨i, m', r, by simp only [reuse, hfind, hfind'], hr, congrArg Prod.fst hea,
        by simp only [findRequest, hfind, hfind', Option.bind_some, hr]⟩)
  · obtain ⟨ra, hget⟩ := findTarget_some hfind
    rw [List.getElem?_map, List.getElem?_drop] at hget
    obtain ⟨e, he, hea⟩ := Option.map_eq_some_iff.mp hget
    exact .inl ⟨i, m, e, by simp only [reuse, hfind], he, congrArg Prod.fst hea,
      by simp only [findRequest, hfind]⟩

/-- The request that a flush takes over. -/
def adopted (cfg : FetchConfig) (env : FetchEnv μ) (u : FetchUnit μ) (a : Addr) :
    Option FetchRequest :=
  if cfg.reuseData then u.findRequest env a else none

/-- A flush goes on with an entry or with a request, or it is complete. -/
theorem flush_cases (cfg : FetchConfig) (env : FetchEnv μ) (u : FetchUnit μ) (a : Addr) :
    (∃ i m e, u.flush cfg env a = (false,
        { reuseEntry cfg { u with env := m } i with canCancel := cfg.canCancel }) ∧
      u.instrBuf[u.nextDecodeEntry + i]? = some e ∧ e.ea = a ∧ u.adopted cfg env a = none) ∨
    (∃ i m r, u.flush cfg env a = (false,
        { reuseRequest cfg env { u with env := m } i with canCancel := cfg.canCancel }) ∧
      u.pendingRequests[i]? = some r ∧ r.ea = a ∧ u.adopted cfg env a = some r) ∨
    ∃ m, u.flush cfg env a = (true,
        { flushInstrBuf cfg env { u with env := m } 0 a u.canCancel with
          canCancel := cfg.canCancel }) ∧
      u.adopted cfg env a = none := by
  rw [flush, adopted]
  cases cfg.reuseData with
  | false => exact .inr (.inr ⟨u.env, rfl, rfl⟩)
  | true =>
    rcases reuse_cases cfg env u a with
      ⟨i, m, e, heq, he, hea, hfind⟩ | ⟨i, m, r, heq, hr, hea, hfind⟩ | ⟨m, heq, hfind⟩ <;>
      rw [if_pos rfl, if_pos rfl, heq, hfind]
    · exact .inl ⟨i, m, e, rfl, he, hea, rfl⟩
    · exact .inr (.inl ⟨i, m, r, rfl, hr, hea, rfl⟩)
    · exact .inr (.inr ⟨m, rfl, rfl⟩)

theorem flush_tracked (hu : u.Tracked cfg) {a : Addr} : (u.flush cfg env a).2.Tracked cfg := by
  have henv (m : μ) : Tracked cfg { u with env := m } := ⟨hu.decoded, hu.nonempty, hu.ahead⟩
  rcases flush_cases cfg env u a with ⟨i, m, e, heq, he, -⟩ | ⟨i, m, r, heq, -⟩ | ⟨m, heq, -⟩
  · have hu' := reuseEntry_tracked (henv m) (List.getElem?_eq_some_iff.mp he).1
    exact heq ▸ ⟨hu'.decoded, hu'.nonempty, hu'.ahead⟩
  · have hu' := @reuseRequest_tracked _ cfg env _ (henv m) i
    exact heq ▸ ⟨hu'.decoded, hu'.nonempty, hu'.ahead⟩
  · have hu' := @flushInstrBuf_tracked _ cfg env _ (henv m) 0 a u.canCancel
    exact heq ▸ ⟨hu'.decoded, hu'.nonempty, hu'.ahead⟩

theorem cancel_tracked (hu : u.Tracked cfg) : (u.cancel cfg env).Tracked cfg := by
  rw [FetchUnit.cancel]
  split
  · exact hu
  case h_2 r rest hpending =>
    have hu' := @flushInstrBuf_tracked _ cfg env u hu u.instrBuf.length r.ea u.canCancel
    exact ⟨hu'.decoded, hu'.nonempty, hu'.ahead⟩

/-! ### Decoding -/

/-- Decoding moves the next entry. Before that, predictions are checked, or a bad prediction is
dropped. -/
theorem decodeUpdate_invariant {P : FetchUnit μ → Prop}
    (hlast : ∀ u n, P u → P { u with lastDecodeEntries := n })
    (hclear : ∀ u i, P u →
      P { u with instrBuf := u.instrBuf.modify i ({ · with predTaken := false }) })
    (hflush : ∀ u n, P u → P (u.flushInstrBuf cfg env n 0 cfg.canCancel)) (hu : P u)
    {success : Bool} {size : ℕ} :
    ∃ x n, P x ∧ u.decodeUpdate cfg env success size = { x with nextDecodeEntry := n } := by
  have hcheck (n : ℕ) (x : FetchUnit μ) (hx : P x) : P (x.checkPredictions cfg env n) := by
    rw [checkPredictions]
    generalize List.range (n - 1) = positions
    induction positions generalizing x with
    | nil => exact hx
    | cons i rest ih =>
      rw [List.foldl_cons]
      apply ih
      split
      · exact hflush x n hx
      · exact hx
  rw [decodeUpdate]
  split
  · exact ⟨u, _, hu, rfl⟩
  · split
    · refine ⟨_, _, ?_, rfl⟩
      split
      · split
        · exact hcheck _ _ (hlast u _ hu)
        · exact hlast u _ hu
      · exact hu
    · split
      · exact ⟨_, _, hflush _ _ (hclear u _ hu), rfl⟩
      · exact ⟨u, _, hu, rfl⟩

theorem clearPrediction_tracked (hu : u.Tracked cfg) {i : ℕ} :
    Tracked cfg { u with instrBuf := u.instrBuf.modify i ({ · with predTaken := false }) } := by
  refine ⟨fun hroom => ?_, hu.nonempty, hu.ahead⟩
  rw [List.length_modify]
  exact hu.decoded hroom

/-- The decoder takes only entries that are there. -/
theorem decodeUpdate_tracked (hu : u.Tracked cfg) {success : Bool} {size : ℕ}
    (hdecoded : (u.decodeUpdate cfg env success size).nextDecodeEntry ≤
      (u.decodeUpdate cfg env success size).instrBuf.length) :
    (u.decodeUpdate cfg env success size).Tracked cfg := by
  obtain ⟨x, n, hx, heq⟩ := decodeUpdate_invariant (P := Tracked cfg)
    (fun _ _ hx => ⟨hx.decoded, hx.nonempty, hx.ahead⟩) (fun _ _ hx => clearPrediction_tracked hx)
    (fun _ _ hx => flushInstrBuf_tracked hx) hu
  rw [heq] at hdecoded ⊢
  exact ⟨fun _ => hdecoded, hx.nonempty, hx.ahead⟩

theorem removeInstr_tracked (hu : u.Tracked cfg) {size : ℕ}
    (hentries : removedEntries cfg size ≤ u.nextDecodeEntry) :
    (u.removeInstr cfg size).Tracked cfg := by
  rw [removeInstr]
  split
  case isTrue => exact hu
  case isFalse hne =>
    refine ⟨fun hroom => ?_, hu.nonempty, hu.ahead⟩
    have hdecoded := hu.decoded hroom
    rw [List.length_drop]
    dsimp only
    omega

theorem instrData_frame :
    ∃ taken target n, (u.instrData cfg).2 = { u with
      predTaken := taken, predTrg := target, lastDecodeEntries := n } := by
  rw [instrData]
  split
  · exact ⟨_, _, _, rfl⟩
  · dsimp only
    split
    · exact ⟨_, _, _, rfl⟩
    · split <;> exact ⟨_, _, _, rfl⟩

/-! ### Calls -/

/-- The decoder takes only what is there, and removes only what it has taken. -/
def Decodes (cfg : FetchConfig) (env : FetchEnv μ) (u : FetchUnit μ) : FetchOp μ → Prop
  | .decodeUpdate success size =>
    (u.decodeUpdate cfg env success size).nextDecodeEntry ≤
      (u.decodeUpdate cfg env success size).instrBuf.length
  | .removeInstr size => removedEntries cfg size ≤ u.nextDecodeEntry
  | _ => True

instance (op : FetchOp μ) : Decidable (u.Decodes cfg env op) :=
  match op with
  | .decodeUpdate _ _ => inferInstanceAs (Decidable (_ ≤ _))
  | .removeInstr _ => inferInstanceAs (Decidable (_ ≤ _))
  | .receiveInstrData | .sendFetchRequests | .instrData | .flush _ | .cancel | .preemptFetch
  | .setCancel _ | .pauseFetch | .forceFetch | .fullReset | .environment _ => .isTrue trivial

/-- Every call of the unit keeps this. -/
theorem exec_tracked (h : cfg.Valid) (henv : env.Lawful) {op : FetchOp μ}
    (hop : u.Decodes cfg env op) (hu : u.Tracked cfg) (hexec : u.exec cfg env op = some u') :
    u'.Tracked cfg := by
  cases op with
  | receiveInstrData => exact receiveInstrData_tracked hu hexec
  | sendFetchRequests => exact sendFetchRequests_tracked h henv hu hexec
  | instrData =>
    obtain ⟨taken, target, n, heq⟩ := @instrData_frame _ cfg u
    rw [exec, heq] at hexec
    exact Option.some.inj hexec ▸ ⟨hu.decoded, hu.nonempty, hu.ahead⟩
  | decodeUpdate success size => exact Option.some.inj hexec ▸ decodeUpdate_tracked hu hop
  | removeInstr size => exact Option.some.inj hexec ▸ removeInstr_tracked hu hop
  | flush a => exact Option.some.inj hexec ▸ flush_tracked hu
  | cancel => exact Option.some.inj hexec ▸ cancel_tracked hu
  | preemptFetch => exact Option.some.inj hexec ▸ preemptFetch_tracked hu
  | fullReset => exact Option.some.inj hexec ▸ ⟨fun _ => le_rfl, nofun, nofun⟩
  | setCancel _ | pauseFetch | forceFetch | environment _ =>
    exact Option.some.inj hexec ▸ ⟨hu.decoded, hu.nonempty, hu.ahead⟩

/-! ### Overruns -/

theorem predict_overrun {p : Plan} : (u.predict cfg env p).2.overrun = u.overrun := by
  rw [predict]
  split
  · rfl
  · split <;> rfl

theorem nextAddr_overrun {p : Plan} : (nextAddr cfg env u p).2.overrun = u.overrun := by
  have hpredict := @predict_overrun _ cfg env u p
  rw [nextAddr]
  split
  · dsimp only
    split
    · split <;> exact hpredict
    · exact hpredict
  · rfl

theorem sendRequest_overrun (h : (u.sendRequest cfg env).2.overrun = false) :
    u.overrun = false := by
  rw [sendRequest] at h
  dsimp only at h
  split at h
  · exact h
  · have hnext := (Bool.or_eq_false_iff.mp h).1
    rwa [nextAddr_overrun] at hnext

theorem receive_overrun {r : FetchRequest} {rest : List FetchRequest}
    (h : (u.receive cfg env r rest).overrun = false) : u.overrun = false := by
  obtain ⟨buf, preds, overrun, heq, hstored⟩ := @receive_eq _ cfg env u r rest
  rw [heq] at h
  exact (hstored.entries h).1

theorem flushInstrBuf_overrun {remain : ℕ} {a : Addr} {deep : Bool} :
    (u.flushInstrBuf cfg env remain a deep).overrun = u.overrun := by
  obtain ⟨m, space, hcancel⟩ :=
    @cancelPending_frame _ cfg env (u.truncate cfg (u.nextDecodeEntry + remain)) deep
  rw [flushInstrBuf, hcancel]
  rfl

theorem resend_overrun : (u.resend env).2.overrun = u.overrun := by
  rw [resend]
  split
  · split <;> rfl
  · rfl

theorem flush_overrun {a : Addr} : (u.flush cfg env a).2.overrun = u.overrun := by
  rcases flush_cases cfg env u a with ⟨i, m, e, heq, -⟩ | ⟨i, m, r, heq, -⟩ | ⟨m, heq, -⟩
  · rw [heq]
    rfl
  · rw [heq]
    rfl
  · rw [heq]
    exact @flushInstrBuf_overrun _ cfg env { u with env := m } 0 a u.canCancel

/-- No call takes an overrun back. -/
theorem exec_overrun {op : FetchOp μ} (hexec : u.exec cfg env op = some u')
    (hroom : u'.overrun = false) : u.overrun = false := by
  -- no call takes an overrun back
  cases op with
  | receiveInstrData =>
    obtain ⟨tryNewFetch, rfl⟩ := receiveInstrData_eq hexec
    refine @receiveLoop_invariant _ cfg env { u with tryNewFetch := tryNewFetch }
      (fun x => x.overrun = false → u.overrun = false) (fun x r rest hx _ _ hroom => ?_) _
      (fun h => h) hroom
    exact hx (receive_overrun hroom)
  | sendFetchRequests =>
    rcases sendFetchRequests_cases hexec with rfl | ⟨fuel, -, first, hloop⟩
    · exact hroom
    · obtain ⟨-, hu⟩ := sendLoop_invariant
        (P := fun _ x => x.overrun = false → u.overrun = false)
        (fun _ x sent x' hx hsend hroom => hx (sendRequest_overrun (by rw [hsend]; exact hroom)))
        (fun h => resend_overrun.symm.trans h) hloop
      exact hu hroom
  | instrData =>
    obtain ⟨taken, target, n, heq⟩ := @instrData_frame _ cfg u
    rw [exec, heq] at hexec
    obtain rfl := Option.some.inj hexec
    exact hroom
  | decodeUpdate success size =>
    obtain ⟨x, n, hx, heq⟩ := @decodeUpdate_invariant _ cfg env u (fun x => x.overrun = u.overrun)
      (fun _ _ hx => hx) (fun _ _ hx => hx) (fun _ _ hx => flushInstrBuf_overrun.trans hx) rfl
      success size
    rw [exec, heq] at hexec
    obtain rfl := Option.some.inj hexec
    exact hx.symm.trans hroom
  | removeInstr size =>
    obtain rfl := Option.some.inj hexec
    rw [removeInstr] at hroom
    split at hroom <;> exact hroom
  | flush a =>
    obtain rfl := Option.some.inj hexec
    exact flush_overrun.symm.trans hroom
  | cancel =>
    obtain rfl := Option.some.inj hexec
    rw [FetchUnit.cancel] at hroom
    split at hroom
    · exact hroom
    case h_2 r rest _ =>
      exact (@flushInstrBuf_overrun _ cfg env u u.instrBuf.length r.ea u.canCancel).symm.trans hroom
  | preemptFetch =>
    obtain rfl := Option.some.inj hexec
    rw [preemptFetch] at hroom
    split at hroom <;> exact hroom
  | setCancel _ | pauseFetch | forceFetch | fullReset | environment _ =>
    obtain rfl := Option.some.inj hexec
    exact hroom

/-- A ring that has been overrun stays so. -/
theorem run_overrun {ops : List (FetchOp μ)} (hrun : ops.foldlM (exec cfg env) u = some u')
    (hroom : u'.overrun = false) : u.overrun = false :=
  Math.foldlM_along (P := fun x => x.overrun = false → u.overrun = false)
    (fun _ _ _ _ hs hexec hroom => hs (exec_overrun hexec hroom)) (Math.allowed_true ops) id hrun
    hroom

end FetchUnit

/-! ### A small fetch unit -/

/-- Fetches of one size, without branch prediction. -/
def plainFetch (nEntries entrySize fetchSize : ℕ) (reuseData : Bool) : FetchConfig where
  nEntries := nEntries
  entrySize := entrySize
  fetchSizes := [fetchSize]
  minFetchEntries := 0
  minInstrSize := entrySize
  maxInstrSize := entrySize
  maxFetchCount := 1
  bpStep := entrySize
  hasPredictor := false
  lazyFetch := false
  flushFetch := true
  canCancel := true
  reuseData := reuseData
  safeMode := false
  issMemMode := false

/-- A memory of zeros. It serves requests when the state says so. -/
def zeroMemory : FetchEnv Bool where
  sendRequestInquire _ := true
  sendFetchRequest m _ _ _ := (0, m)
  readInquire m _ := m
  read m _ := (fun _ => 0, m)
  cancel m _ _ := m
  fetchMemoryData _ _ _ _ := 0
  hasFetchException _ := false
  ea _ a := a
  prefetchTranslate m a := (a, m)
  fetchTranslate m a _ _ := (some (a, fun _ => 0), m)
  branchPredict m _ := (none, m)

theorem zeroMemory_lawful : zeroMemory.Lawful :=
  ⟨fun _ _ => le_rfl, fun _ _ _ _ _ h => (by cases h), fun _ _ _ _ _ h => (by cases h)⟩

theorem plainFetch_valid : (plainFetch 4 4 8 true).Valid :=
  ⟨by decide, by decide, by decide, by decide, by decide, by decide⟩

end Adl.Uadl
